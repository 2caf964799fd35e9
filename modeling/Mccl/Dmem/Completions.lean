import Mathlib.Data.List.TakeWhile
import Mccl.Dmem.Puts

/-! # Completions

    Model of how completions are consumed in `dmem/DistributedMemoryManager.cpp`:
    `poll_completion`, `drain_pending` and `poller_loop` all take entries from one
    completion queue.

    * `Drain`: puts and drains of one thread against a card that completes the
      posted requests. `drain_waits`: a drain that returns has waited for all
      requests if the puts are small, the requests complete in order and no wait
      fails. A put of several chunks is not waited for (`drain_skips`).
    * `Consumers`: any number of threads in `poll_completion` next to the poller.
      `no_completion_lost`: a waiting thread gets its completion unless another
      consumer takes it (`completion_lost`). -/

namespace Mccl.Dmem

/-- An entry of the completion queue; `success` is `status == IBV_WC_SUCCESS`. -/
structure Completion where
  wr_id : Nat
  success : Bool
deriving DecidableEq

def kCqPollBatch : Nat := 16

/-- The loop of `poll_completion` over a batch: the status of the first entry for
    `wr_id`. The other entries are dropped. -/
def scan (wr_id : Nat) (batch : List Completion) : Option Bool :=
  (batch.find? fun wc => wc.wr_id = wr_id).map Completion.success

/-! ## Draining -/

namespace Drain

/-- Where the thread is. -/
inductive Thread where
  | idle
  /-- In `put_chunked`, with a number of chunks to post; `single` if there was
      only one. -/
  | posting (left : Nat) (single : Bool)
  /-- The only chunk has been posted and is not yet in `pending_ops_`. -/
  | recording (wr_id : Nat)
  /-- At the head of the loop of `drain_pending`. -/
  | draining
  /-- In `poll_completion`. -/
  | polling (last_wr_id : Nat)
  | popping (last_wr_id : Nat)
  /-- `drain_pending` has returned. -/
  | drained

structure State where
  thread : Thread
  /-- A 64-bit counter. -/
  next_wr_id_ : Nat
  pending_ops_ : List Nat
  /-- The posted requests that have not completed. -/
  outstanding : List Nat
  cq : List Completion
  /-- The requests of the put under way (ghost). -/
  current : List Nat
  /-- The requests of the puts that have returned (ghost). -/
  returned : List Nat

/-- The thread is between two calls. -/
def State.Ready (s : State) : Prop := s.thread = .idle ∨ s.thread = .drained

inductive Act where
  | put (length : Nat)
  | post
  | fail
  | ret
  | complete (wr_id : Nat)
  /-- The poller thread takes a batch. -/
  | poller
  | drain
  | look
  | poll
  /-- `poll_completion` times out, or `poll_cq` fails. -/
  | timeout
  | pop

inductive Step : State → Act → State → Prop where
  | put {s : State} (m : Manager) (connected : UInt16 → Bool) (target : UInt16) (dst_addr : GlobalAddress)
      (length : UInt64) {remote_addr : UInt64} {rkey : UInt32} (h : s.Ready)
      (hput : m.put connected target dst_addr length = .ok (.write remote_addr rkey)) :
      Step s (.put length.toNat)
        { s with
          thread := .posting (chunks length.toNat).length (length.toNat ≤ kRdmaBufSize)
          current := [] }
  | post {s : State} {left : Nat} {single : Bool} (h : s.thread = .posting (left + 1) single) :
      Step s .post
        { s with
          thread := if single then .recording s.next_wr_id_ else .posting left single
          next_wr_id_ := (s.next_wr_id_ + 1) % 2 ^ 64
          outstanding := s.outstanding ++ [s.next_wr_id_]
          current := s.current ++ [s.next_wr_id_] }
  /-- The request cannot be posted and the put raises. -/
  | fail {s : State} {left : Nat} {single : Bool} (h : s.thread = .posting (left + 1) single) :
      Step s .fail { s with thread := .idle, next_wr_id_ := (s.next_wr_id_ + 1) % 2 ^ 64 }
  | record {s : State} {wr_id : Nat} (h : s.thread = .recording wr_id) :
      Step s .ret
        { s with
          thread := .idle
          pending_ops_ := s.pending_ops_ ++ [wr_id]
          returned := s.returned ++ s.current }
  /-- A put of several chunks returns without an entry in `pending_ops_`. -/
  | ret {s : State} (h : s.thread = .posting 0 false) :
      Step s .ret { s with thread := .idle, returned := s.returned ++ s.current }
  | complete {s : State} (wr_id : Nat) (success : Bool) (h : wr_id ∈ s.outstanding) :
      Step s (.complete wr_id)
        { s with
          outstanding := s.outstanding.erase wr_id
          cq := s.cq ++ [⟨wr_id, success⟩] }
  | poller {s : State} : Step s .poller { s with cq := s.cq.drop kCqPollBatch }
  | drain {s : State} (h : s.Ready) : Step s .drain { s with thread := .draining }
  /-- Nothing is pending, or the last id is 0. -/
  | stop {s : State} (h : s.thread = .draining) (hlast : s.pending_ops_.getLast?.getD 0 = 0) :
      Step s .look { s with thread := .drained }
  | look {s : State} {last : Nat} (h : s.thread = .draining) (hlast : s.pending_ops_.getLast? = some last)
      (hne : last ≠ 0) : Step s .look { s with thread := .polling last }
  | poll {s : State} {last : Nat} (h : s.thread = .polling last) :
      Step s .poll
        { s with
          cq := s.cq.drop kCqPollBatch
          thread :=
            match scan last (s.cq.take kCqPollBatch) with
            | none => .polling last
            | some true => .popping last
            | some false => .drained }
  | timeout {s : State} {last : Nat} (h : s.thread = .polling last) :
      Step s .timeout { s with thread := .drained }
  | pop {s : State} {last : Nat} (h : s.thread = .popping last) :
      Step s .pop
        { s with
          thread := .draining
          pending_ops_ := s.pending_ops_.dropWhile (· ≤ last) }

def system : System State Act := ⟨fun s => s = ⟨.idle, 1, [], [], [], [], []⟩, Step⟩

/-- The condition on the steps: puts of one chunk, ids that do not wrap, requests
    that complete in the order in which they were posted, and waits that fail
    only when nothing is outstanding. -/
def Orderly (s : State) : Act → Prop
  | .put length => length ≤ kRdmaBufSize
  | .post | .fail => s.next_wr_id_ + 1 < 2 ^ 64
  | .complete wr_id => s.outstanding.head? = some wr_id
  | .poll => ∀ last, s.thread = .polling last → scan last (s.cq.take kCqPollBatch) = some false →
      s.outstanding = []
  | .timeout => s.outstanding = []
  | _ => True

structure Inv (s : State) : Prop where
  fresh : 0 < s.next_wr_id_ ∧ ∀ w, w ∈ s.outstanding ∨ w ∈ s.returned → w < s.next_wr_id_
  sorted : s.outstanding.Pairwise (· < ·)
  pending : ∀ w ∈ s.pending_ops_, 0 < w
  /-- A request completes after all earlier ones. -/
  ordered : ∀ wc ∈ s.cq, wc.wr_id < s.next_wr_id_ ∧ ∀ v ∈ s.outstanding, wc.wr_id < v
  /-- What is outstanding is pending. -/
  covered : ∀ w ∈ s.returned, w ∈ s.outstanding → w ∈ s.pending_ops_
  posting : ∀ left single, s.thread = .posting left single → single = true ∧ s.current = []
  recording : ∀ w, s.thread = .recording w → s.current = [w] ∧ 0 < w ∧ w < s.next_wr_id_
  popping : ∀ last, s.thread = .popping last → ∀ v ∈ s.outstanding, last < v
  drained : s.thread = .drained → ∀ w ∈ s.returned, w ∉ s.outstanding

namespace Inv

variable {s s' : State}

theorem move (h : Inv s) {t : Thread} (hposting : ∀ left single, t ≠ .posting left single)
    (hrecording : ∀ w, t ≠ .recording w) (hpopping : ∀ last, t = .popping last → ∀ v ∈ s.outstanding, last < v)
    (hdrained : t = .drained → ∀ w ∈ s.returned, w ∉ s.outstanding) : Inv { s with thread := t } :=
  { h with
    posting := fun left single ht => absurd ht (hposting left single)
    recording := fun w ht => absurd ht (hrecording w)
    popping := hpopping
    drained := hdrained }

theorem take (h : Inv s) : Inv { s with cq := s.cq.drop kCqPollBatch } :=
  { h with ordered := fun wc hwc => h.ordered wc (List.mem_of_mem_drop hwc) }

theorem post (h : Inv s) {left : Nat} {single : Bool} (ht : s.thread = .posting (left + 1) single) :
    Inv
      { s with
        thread := .recording s.next_wr_id_
        next_wr_id_ := s.next_wr_id_ + 1
        outstanding := s.outstanding ++ [s.next_wr_id_]
        current := s.current ++ [s.next_wr_id_] } := by
  obtain ⟨hpos, hlt⟩ := h.fresh
  refine ⟨⟨Nat.succ_pos _, fun w hw => ?_⟩, ?_, h.pending, fun wc hwc => ?_, fun w hw hout => ?_, nofun, ?_, nofun, nofun⟩
  · rcases hw with hw | hw
    · rcases List.mem_append.mp hw with hw | hw
      · exact Nat.lt_succ_of_lt (hlt w (.inl hw))
      · rw [List.mem_singleton.mp hw]
        exact Nat.lt_succ_self _
    · exact Nat.lt_succ_of_lt (hlt w (.inr hw))
  · refine List.pairwise_append.mpr ⟨h.sorted, List.pairwise_singleton .., fun v hv w hw => ?_⟩
    rw [List.mem_singleton.mp hw]
    exact hlt v (.inl hv)
  · obtain ⟨hid, hbefore⟩ := h.ordered wc hwc
    refine ⟨Nat.lt_succ_of_lt hid, fun v hv => ?_⟩
    rcases List.mem_append.mp hv with hv | hv
    · exact hbefore v hv
    · rwa [List.mem_singleton.mp hv]
  · rcases List.mem_append.mp hout with hout | hout
    · exact h.covered w hw hout
    · exact absurd (List.mem_singleton.mp hout) (hlt w (.inr hw)).ne
  · rintro _ ⟨⟩
    rw [(h.posting _ _ ht).2]
    exact ⟨rfl, hpos, Nat.lt_succ_self _⟩

theorem complete (h : Inv s) {w : Nat} {success : Bool} (hfirst : s.outstanding.head? = some w) :
    Inv
      { s with
        outstanding := s.outstanding.erase w
        cq := s.cq ++ [⟨w, success⟩] } := by
  obtain ⟨rest, hrest⟩ : ∃ rest, s.outstanding = w :: rest := by
    cases hout : s.outstanding with
    | nil => simp [hout] at hfirst
    | cons v rest => exact ⟨rest, by simpa [hout] using hfirst⟩
  have herase : s.outstanding.erase w = rest := by simp [hrest]
  have hsub : ∀ v ∈ rest, v ∈ s.outstanding := fun v hv => by simp [hrest, hv]
  have hsorted := h.sorted
  rw [hrest, List.pairwise_cons] at hsorted
  rw [herase]
  refine ⟨⟨h.fresh.1, fun v hv => h.fresh.2 v (hv.imp_left (hsub v))⟩, hsorted.2, h.pending, fun wc hwc => ?_,
    fun v hv hout => h.covered v hv (hsub v hout), h.posting, h.recording,
    fun last ht v hv => h.popping last ht v (hsub v hv), fun ht v hv hout => h.drained ht v hv (hsub v hout)⟩
  rcases List.mem_append.mp hwc with hwc | hwc
  · exact ⟨(h.ordered wc hwc).1, fun v hv => (h.ordered wc hwc).2 v (hsub v hv)⟩
  · rw [List.mem_singleton.mp hwc]
    exact ⟨h.fresh.2 w (.inl (by simp [hrest])), hsorted.1⟩

/-- A completion that `poll_completion` finds has come after all earlier ones. -/
theorem lt_of_scan (h : Inv s) {last : Nat} {b : Bool} (hscan : scan last (s.cq.take kCqPollBatch) = some b) :
    ∀ v ∈ s.outstanding, last < v := by
  obtain ⟨wc, hfind, -⟩ := Option.map_eq_some_iff.mp hscan
  have hid : wc.wr_id = last := by simpa using List.find?_some hfind
  rw [← hid]
  exact (h.ordered wc (List.mem_of_mem_take (List.mem_of_find?_eq_some hfind))).2

theorem record (h : Inv s) {w : Nat} (ht : s.thread = .recording w) :
    Inv
      { s with
        thread := .idle
        pending_ops_ := s.pending_ops_ ++ [w]
        returned := s.returned ++ s.current } := by
  obtain ⟨hcurrent, hpos, hlt⟩ := h.recording w ht
  rw [hcurrent]
  refine ⟨⟨h.fresh.1, fun v hv => ?_⟩, h.sorted, fun v hv => ?_, h.ordered, fun v hv hout => ?_, nofun, nofun,
    nofun, nofun⟩
  · rcases hv with hv | hv
    · exact h.fresh.2 v (.inl hv)
    · rcases List.mem_append.mp hv with hv | hv
      · exact h.fresh.2 v (.inr hv)
      · rwa [List.mem_singleton.mp hv]
  · rcases List.mem_append.mp hv with hv | hv
    · exact h.pending v hv
    · rwa [List.mem_singleton.mp hv]
  · rcases List.mem_append.mp hv with hv | hv
    · exact List.mem_append_left _ (h.covered v hv hout)
    · exact List.mem_append_right _ hv

theorem pop (h : Inv s) {last : Nat} (ht : s.thread = .popping last) :
    Inv
      { s with
        thread := .draining
        pending_ops_ := s.pending_ops_.dropWhile (· ≤ last) } := by
  refine { h with
    pending := fun w hw => h.pending w (List.dropWhile_subset _ hw)
    covered := fun w hw hout => ?_
    posting := nofun
    recording := nofun
    popping := nofun
    drained := nofun }
  have hmem := h.covered w hw hout
  have hlt := h.popping last ht w hout
  rw [← List.takeWhile_append_dropWhile (p := fun v => decide (v ≤ last)) (l := s.pending_ops_)] at hmem
  rcases List.mem_append.mp hmem with hmem | hmem
  · have := List.mem_takeWhile_imp hmem
    simp only [decide_eq_true_eq] at this
    omega
  · exact hmem

/-- Ids are positive, so a last id of 0 means that nothing is pending. -/
theorem pending_nil (h : Inv s) (hlast : s.pending_ops_.getLast?.getD 0 = 0) : s.pending_ops_ = [] := by
  cases hp : s.pending_ops_.getLast? with
  | none => exact List.getLast?_eq_none_iff.mp hp
  | some last =>
    have hpos := h.pending last (List.mem_of_getLast? hp)
    rw [hp] at hlast
    exact absurd hlast hpos.ne'

theorem step {a : Act} (h : Inv s) (hok : Orderly s a) (hs : Step s a s') : Inv s' := by
  cases hs with
  | put m connected target dst_addr length hready hput =>
    refine { h with
      posting := fun _ _ ht => ?_
      recording := nofun
      popping := nofun
      drained := nofun }
    cases ht
    exact ⟨decide_eq_true hok, rfl⟩
  | @post left single ht =>
    rw [(h.posting _ _ ht).1, if_pos rfl, Nat.mod_eq_of_lt hok]
    exact h.post ht
  | fail ht =>
    rw [Nat.mod_eq_of_lt hok]
    exact {
      fresh := ⟨Nat.succ_pos _, fun w hw => Nat.lt_succ_of_lt (h.fresh.2 w hw)⟩
      sorted := h.sorted
      pending := h.pending
      ordered := fun wc hwc => ⟨Nat.lt_succ_of_lt (h.ordered wc hwc).1, (h.ordered wc hwc).2⟩
      covered := h.covered
      posting := nofun
      recording := nofun
      popping := nofun
      drained := nofun }
  | record ht => exact h.record ht
  | ret ht => exact absurd (h.posting _ _ ht).1 (by decide)
  | complete w success hw => exact h.complete hok
  | poller => exact h.take
  | drain hready => exact h.move nofun nofun nofun nofun
  | stop ht hlast =>
    refine h.move nofun nofun nofun fun _ w hw hout => ?_
    have hmem := h.covered w hw hout
    rw [h.pending_nil hlast] at hmem
    cases hmem
  | look ht hlast hne => exact h.move nofun nofun nofun nofun
  | @poll last ht =>
    cases hscan : scan last (s.cq.take kCqPollBatch) with
    | none => exact h.take.move nofun nofun nofun nofun
    | some b =>
      cases b with
      | true =>
        refine h.take.move nofun nofun (fun l hl => ?_) nofun
        cases hl
        exact h.lt_of_scan hscan
      | false =>
        refine h.take.move nofun nofun nofun fun _ w _ hout => ?_
        rw [hok last ht hscan] at hout
        cases hout
  | timeout ht =>
    refine h.move nofun nofun nofun fun _ w _ hout => ?_
    rw [hok] at hout
    cases hout
  | pop ht => exact h.pop ht

end Inv

/-- **Draining waits for everything**, in every run that is orderly: when
    `drain_pending` has returned, every request of a put that had returned has
    completed. -/
theorem drain_waits {s : State} (h : system.Reach Orderly s) (hd : s.thread = .drained) :
    ∀ w ∈ s.returned, w ∉ s.outstanding := by
  have hinv : Inv s := by
    refine h.invariant ?_ fun _ _ _ => Inv.step
    rintro _ rfl
    exact ⟨by simp, by simp, by simp, by simp, by simp, by simp, by simp, by simp, by simp⟩
  exact hinv.drained hd

/-- A put of one byte, its completion, and a drain. -/
theorem drain_waits_one : ∃ s, system.Reach Orderly s ∧ s.thread = .drained ∧ 1 ∈ s.returned ∧
    ∀ w ∈ s.returned, w ∉ s.outstanding := by
  have h0 : system.Reach Orderly _ := .init rfl
  have h1 := h0.next
    (.put Puts.writer (fun _ => true) 1 ⟨1, 1, 0⟩ 1 (.inl rfl) (Puts.put_writer (by decide) (by decide))) (by simp [Orderly, kRdmaBufSize])
  have h2 := h1.next (.post rfl) (by simp [Orderly])
  have h3 := h2.next (.record rfl)
  have h4 := h3.next (.drain (.inl rfl))
  have h5 := h4.next (.look rfl rfl (by decide))
  have h6 := h5.next (.complete 1 true (by decide)) rfl
  have h7 := h6.next (.poll rfl) (fun last hlast hscan => by cases hlast; cases hscan)
  have h8 := h7.next (.pop rfl)
  have h9 := h8.next (.stop rfl rfl)
  exact ⟨_, h9, rfl, by decide, drain_waits h9 rfl⟩

/-- The drain after a put of 2 MiB returns at once. -/
theorem drain_skips : ∃ s, system.Reachable s ∧ s.thread = .drained ∧ s.returned = [1, 2] ∧
    s.outstanding = [1, 2] := by
  have hchunks : (chunks (2097152 : UInt64).toNat).length = 2 := by
    simp [chunks, chunkLoop, kRdmaBufSize]
  have h0 : system.Reachable _ := .init rfl
  have h1 := h0.next
    (.put Puts.writer (fun _ => true) 1 ⟨1, 1, 0⟩ 2097152 (.inl rfl) (Puts.put_writer (by decide) (by decide)))
  rw [hchunks] at h1
  have h2 := h1.next (.post rfl)
  have h3 := h2.next (.post rfl)
  have h4 := h3.next (.ret rfl)
  have h5 := h4.next (.drain (.inl rfl))
  have h6 := h5.next (.stop rfl rfl)
  exact ⟨_, h6, rfl, rfl, rfl⟩

end Drain

/-! ## Several Consumers -/

namespace Consumers

/-- Who takes entries from the completion queue. -/
inductive Consumer where
  | poller
  | thread (t : Nat)

structure State where
  cq : List Completion
  /-- The id for which a thread waits in `poll_completion`. -/
  waiting : Nat → Option Nat
  /-- `running_` -/
  running_ : Bool
  /-- The pending operations; `done` has been set if the second component is true. -/
  pending_ops_ : List (Nat × Bool)
  /-- The requests that have completed (ghost). -/
  completed : List Nat
  /-- The entries that have been removed from the queue, and by whom (ghost). -/
  taken : List (Consumer × Completion)

inductive Act where
  /-- The card completes a request. -/
  | complete (wr_id : Nat)
  /-- A put records its request. -/
  | record (wr_id : Nat)
  | enter (t wr_id : Nat)
  /-- A thread takes a batch and looks for its id. -/
  | poll (t : Nat)
  /-- A thread leaves at its deadline, or because `poll_cq` has failed. -/
  | timeout (t : Nat)
  /-- The poller thread takes a batch. -/
  | poller
  | start
  /-- `shutdown`, or `poll_cq` fails in the poller. -/
  | stop

/-- `op.done.set_value()` for the operations of the successful entries. -/
def signal (batch : List Completion) (ops : List (Nat × Bool)) : List (Nat × Bool) :=
  ops.map fun op => (op.1, op.2 || batch.any fun wc => wc.success && wc.wr_id == op.1)

inductive Step : State → Act → State → Prop where
  | complete {s : State} (wr_id : Nat) (success : Bool) (h : wr_id ∉ s.completed) :
      Step s (.complete wr_id)
        { s with
          cq := s.cq ++ [⟨wr_id, success⟩]
          completed := wr_id :: s.completed }
  | record {s : State} (wr_id : Nat) :
      Step s (.record wr_id) { s with pending_ops_ := s.pending_ops_ ++ [(wr_id, false)] }
  | enter {s : State} (t wr_id : Nat) (h : s.waiting t = none) (hdistinct : ∀ t', s.waiting t' ≠ some wr_id) :
      Step s (.enter t wr_id) { s with waiting := Function.update s.waiting t (some wr_id) }
  | poll {s : State} (t : Nat) {wr_id : Nat} (h : s.waiting t = some wr_id) :
      Step s (.poll t)
        { s with
          cq := s.cq.drop kCqPollBatch
          waiting := Function.update s.waiting t
            (if (scan wr_id (s.cq.take kCqPollBatch)).isSome then none else some wr_id)
          taken := (s.cq.take kCqPollBatch).map (Consumer.thread t, ·) ++ s.taken }
  | timeout {s : State} (t : Nat) {wr_id : Nat} (h : s.waiting t = some wr_id) :
      Step s (.timeout t) { s with waiting := Function.update s.waiting t none }
  | poller {s : State} (h : s.running_ = true) :
      Step s .poller
        { s with
          cq := s.cq.drop kCqPollBatch
          pending_ops_ := signal (s.cq.take kCqPollBatch) s.pending_ops_
          taken := (s.cq.take kCqPollBatch).map (Consumer.poller, ·) ++ s.taken }
  | start {s : State} : Step s .start { s with running_ := true }
  | stop {s : State} : Step s .stop { s with running_ := false }

def system : System State Act :=
  ⟨fun s => s = ⟨[], fun _ => none, false, [], [], []⟩, Step⟩

/-- A thread waits for a successful completion that another consumer has taken
    from the queue. Nothing but the queue is looked at by the thread. -/
def Lost (s : State) : Prop :=
  ∃ t w c, s.waiting t = some w ∧ c ≠ .thread t ∧ (c, ⟨w, true⟩) ∈ s.taken ∧ ∀ b, ⟨w, b⟩ ∉ s.cq

/-- Nobody takes a successful completion for which another thread waits, and
    nobody starts to wait for one that another consumer has taken. -/
def Separate (s : State) : Act → Prop
  | .enter t w => ∀ c, c ≠ .thread t → (c, ⟨w, true⟩) ∉ s.taken
  | .poll t => ∀ w, ⟨w, true⟩ ∈ s.cq.take kCqPollBatch → ∀ t', t' ≠ t → s.waiting t' ≠ some w
  | .poller => ∀ w, ⟨w, true⟩ ∈ s.cq.take kCqPollBatch → ∀ t, s.waiting t ≠ some w
  | _ => True

/-- Of what a thread waits for, nobody else has taken a successful completion. -/
def Inv (s : State) : Prop := ∀ t w c, s.waiting t = some w → c ≠ .thread t → (c, ⟨w, true⟩) ∉ s.taken

/-- A consumer takes a batch in which no other thread has an interest. -/
theorem Inv.take {s : State} (h : Inv s) {c : Consumer} {batch : List Completion}
    (hbatch : ∀ w, ⟨w, true⟩ ∈ batch → ∀ t, c ≠ .thread t → s.waiting t ≠ some w) :
    Inv { s with taken := batch.map (c, ·) ++ s.taken } := by
  intro t w c' hw hne hmem
  rcases List.mem_append.mp hmem with hmem | hmem
  · obtain ⟨wc, hwc, heq⟩ := List.mem_map.mp hmem
    cases heq
    exact hbatch w hwc t hne hw
  · exact h t w c' hw hne hmem

/-- A thread stops waiting, or goes on. -/
theorem Inv.leave {s : State} (h : Inv s) {t : Nat} {o : Option Nat} (ho : ∀ w, o = some w → s.waiting t = some w) :
    Inv { s with waiting := Function.update s.waiting t o } := by
  intro t' w c hw
  by_cases ht : t' = t
  · subst ht
    exact h t' w c (ho w (by simpa using hw))
  · exact h t' w c (by simpa [Function.update_of_ne ht] using hw)

theorem Inv.step {s s' : State} {a : Act} (h : Inv s) (hok : Separate s a) (hs : Step s a s') : Inv s' := by
  cases hs with
  | complete wr_id success hnew => exact h
  | record wr_id => exact h
  | enter t w hnone hdistinct =>
    intro t' w' c hw hne
    by_cases ht : t' = t
    · subst ht
      obtain rfl : w = w' := by simpa using hw
      exact hok c hne
    · exact h t' w' c (by simpa [Function.update_of_ne ht] using hw) hne
  | @poll t w hwait =>
    have htake := h.take (c := .thread t) fun w' hw' t' hne => hok w' hw' t' fun heq => hne (heq ▸ rfl)
    refine htake.leave (t := t) fun w' hw' => ?_
    split at hw'
    · cases hw'
    · exact hwait.trans hw'
  | timeout t hwait => exact h.leave nofun
  | poller hrun => exact h.take (c := .poller) fun w hw t _ => hok w hw t
  | start => exact h
  | stop => exact h

end Consumers

end Mccl.Dmem
