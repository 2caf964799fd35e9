import Mathlib.Data.List.Basic
import Mathlib.Order.Nat
import Mccl.Framework.System

/-! # The Store-Backed Barrier

    Model of `Rendezvous::barrier` (`runtime/Rendezvous.cpp`) and of the calls
    that `ProcessGroupMCCL::barrier` makes of it.

    * Every rank numbers its calls of `barrier` with a 64-bit counter and hands
      them to its engine, which runs them in order.
    * A barrier publishes the rank's own key and then waits for the key of every
      other rank, in rank order. Keys stay in the store.
    * `barrier_safe`: as long as no counter has wrapped, a barrier that returns
      has been started by every rank. After 2^64 calls the numbers, and with
      them the keys, are used again (`barrier_wraps`). -/

namespace Mccl.Rendezvous

/-! ## Keys -/

def endpoint_key (rank : Nat) : String := "mccl/endpoint/" ++ toString rank

def barrier_key (tag : String) (rank : Nat) : String :=
  "mccl/barrier/" ++ tag ++ "/" ++ toString rank

/-- The key under which `PeerMesh` publishes a rank's addresses. -/
def peer_key (rank : Nat) : String := "mccl/peer/" ++ toString rank

/-- The tag of the barrier with sequence number `seq`. -/
def barrier_tag (seq : Nat) : String := "pg_barrier_" ++ toString seq

theorem toList_endpoint_key (rank : Nat) :
    (endpoint_key rank).toList = "mccl/endpoint/".toList ++ rank.repr.toList := by
  unfold endpoint_key
  exact String.toList_append

theorem toList_barrier_key (tag : String) (rank : Nat) :
    (barrier_key tag rank).toList = "mccl/barrier/".toList ++ (tag.toList ++ '/' :: rank.repr.toList) := by
  unfold barrier_key
  rw [String.toList_append, String.toList_append, String.toList_append, List.append_assoc, List.append_assoc]
  rfl

theorem toList_peer_key (rank : Nat) : (peer_key rank).toList = "mccl/peer/".toList ++ rank.repr.toList := by
  unfold peer_key
  exact String.toList_append

theorem toList_barrier_tag (seq : Nat) : (barrier_tag seq).toList = "pg_barrier_".toList ++ seq.repr.toList := by
  unfold barrier_tag
  exact String.toList_append

theorem slash_notMem_repr (n : Nat) : '/' ∉ n.repr.toList := by
  intro h
  rw [Nat.toList_repr] at h
  have hdigit := Nat.isDigit_of_mem_toDigits (by omega) (by omega) h
  revert hdigit
  decide

theorem repr_toList_injective {m n : Nat} (h : m.repr.toList = n.repr.toList) : m = n := by
  have hread := congrArg (Nat.ofDigitChars 10 · 0) h
  simpa only [Nat.toList_repr, Nat.ofDigitChars_ten_toDigits] using hread

/-- Keys of different barriers or of different ranks are different. -/
theorem barrier_key_injective {k k' r r' : Nat}
    (h : barrier_key (barrier_tag k) r = barrier_key (barrier_tag k') r') : k = k' ∧ r = r' := by
  have hl := congrArg String.toList h
  simp only [toList_barrier_key, toList_barrier_tag, List.append_assoc, List.append_cancel_left_eq] at hl
  -- a slash separates the two numbers and occurs in neither of them
  obtain ⟨hk, -, hr⟩ := (List.append_cons_inj_of_notMem (slash_notMem_repr k) (slash_notMem_repr r)).mp hl
  exact ⟨repr_toList_injective hk, repr_toList_injective hr⟩

theorem barrier_key_ne_endpoint_key (tag : String) (r r' : Nat) : barrier_key tag r ≠ endpoint_key r' := by
  intro h
  have hl := congrArg (fun key => key.toList[5]?) h
  simp [toList_barrier_key, toList_endpoint_key] at hl

theorem barrier_key_ne_peer_key (tag : String) (r r' : Nat) : barrier_key tag r ≠ peer_key r' := by
  intro h
  have hl := congrArg (fun key => key.toList[5]?) h
  simp [toList_barrier_key, toList_peer_key] at hl

/-! ## A Rank -/

structure Process where
  /-- `seq_`, a 64-bit counter. -/
  seq_ : Nat
  /-- The tags of the submitted barriers that the engine has not started. -/
  queue : List String
  /-- The barrier that the engine runs: its tag and the rank it looks at next. -/
  current : Option (String × Nat)
  /-- For every barrier that has ended, in order, whether it returned; otherwise
      it timed out (ghost). -/
  outcomes : List Bool

namespace Process

/-- The number of barriers the rank has started to execute. -/
def started (p : Process) : Nat := p.outcomes.length + p.current.toList.length

/-- The number of times the rank has called `barrier`. -/
def calls (p : Process) : Nat := p.started + p.queue.length

/-- `ProcessGroupMCCL::barrier` in a group of `w` ranks: a rank alone completes
    at once. -/
def call (w : Nat) (p : Process) : Process :=
  if w = 1 then { p with outcomes := p.outcomes ++ [true] }
  else
    { p with
      seq_ := (p.seq_ + 1) % 2 ^ 64
      queue := p.queue ++ [barrier_tag p.seq_] }

def start (p : Process) (tag : String) (queue : List String) : Process :=
  { p with queue := queue, current := some (tag, 0) }

def advance (p : Process) (tag : String) (r : Nat) : Process := { p with current := some (tag, r + 1) }

def finish (p : Process) (returned : Bool) : Process :=
  { p with current := none, outcomes := p.outcomes ++ [returned] }

end Process

open Process (started calls)

/-! ## The Group -/

structure State (w : Nat) where
  /-- The keys that have been set. -/
  store : List String
  process : Fin w → Process

inductive Act (w : Nat) where
  /-- The calling thread enters `barrier`. -/
  | call (r : Fin w)
  /-- The engine starts the next barrier and sets the rank's key. -/
  | start (r : Fin w)
  /-- The loop passes over the rank itself. -/
  | skip (r : Fin w)
  /-- `wait` and `get` succeed for the next peer. -/
  | wait (r : Fin w)
  /-- `wait` or `get` throws. -/
  | timeout (r : Fin w)
  | finish (r : Fin w)
  /-- Another use of the store. -/
  | publish (key : String)

variable {w : Nat}

namespace State

/-- The rank `r` becomes `p`. -/
def set (s : State w) (r : Fin w) (p : Process) : State w :=
  { s with process := Function.update s.process r p }

/-- `store_->set(key, …)`. -/
def put (s : State w) (key : String) : State w := { s with store := key :: s.store }

variable (s : State w) (r : Fin w) (p p' : Process) (key : String)

@[simp] theorem store_set : (s.set r p).store = s.store := rfl

@[simp] theorem process_set_self : (s.set r p).process r = p := Function.update_self ..

@[simp] theorem process_set_of_ne {q : Fin w} (h : q ≠ r) : (s.set r p).process q = s.process q :=
  Function.update_of_ne h ..

@[simp] theorem set_set : (s.set r p).set r p' = s.set r p' := by simp [set]

@[simp] theorem store_put : (s.put key).store = key :: s.store := rfl

@[simp] theorem process_put : (s.put key).process = s.process := rfl

end State

inductive Step : State w → Act w → State w → Prop where
  | call {s : State w} (r : Fin w) : Step s (.call r) (s.set r ((s.process r).call w))
  | start {s : State w} (r : Fin w) {tag : String} {queue : List String}
      (h : (s.process r).current = none) (hq : (s.process r).queue = tag :: queue) :
      Step s (.start r) ((s.set r ((s.process r).start tag queue)).put (barrier_key tag r))
  | skip {s : State w} (r : Fin w) {tag : String} (h : (s.process r).current = some (tag, r.val)) :
      Step s (.skip r) (s.set r ((s.process r).advance tag r))
  | wait {s : State w} (r q : Fin w) {tag : String} (h : (s.process r).current = some (tag, q.val))
      (hne : q ≠ r) (hkey : barrier_key tag q ∈ s.store) :
      Step s (.wait r) (s.set r ((s.process r).advance tag q))
  | timeout {s : State w} (r q : Fin w) {tag : String} (h : (s.process r).current = some (tag, q.val))
      (hne : q ≠ r) : Step s (.timeout r) (s.set r ((s.process r).finish false))
  | finish {s : State w} (r : Fin w) {tag : String} (h : (s.process r).current = some (tag, w)) :
      Step s (.finish r) (s.set r ((s.process r).finish true))
  | publish {s : State w} {key : String} (r : Nat) (h : key = endpoint_key r ∨ key = peer_key r) :
      Step s (.publish key) (s.put key)

def init (s : State w) : Prop := s = ⟨[], fun _ => ⟨0, [], none, []⟩⟩

/-- A group of `w` ranks over one store. -/
def group (w : Nat) : System (State w) (Act w) := ⟨init, Step⟩

/-- The `k`-th barrier of rank `r` has returned without a timeout. -/
def State.Returned (s : State w) (r : Fin w) (k : Nat) : Prop := (s.process r).outcomes[k]? = some true

/-- A rank calls `barrier` at most 2^64 times. -/
def Fits (s : State w) : Act w → Prop
  | .call r => (s.process r).calls < 2 ^ 64
  | _ => True

/-! ## Numbering -/

/-- The barriers of a rank carry their numbers, up to the width of the counter. -/
structure Process.Numbered (w : Nat) (p : Process) : Prop where
  queue : p.queue = (List.range' p.started p.queue.length).map fun k => barrier_tag (k % 2 ^ 64)
  seq : w ≠ 1 → p.seq_ = p.calls % 2 ^ 64
  current : ∀ tag q, p.current = some (tag, q) → tag = barrier_tag (p.outcomes.length % 2 ^ 64)
  alone : w = 1 → p.queue = [] ∧ p.current = none

namespace Process.Numbered

variable {p : Process} {tag : String} {q : Nat} {queue : List String}

theorem call (h : p.Numbered w) : (p.call w).Numbered w := by
  unfold Process.call
  split
  case isTrue hw =>
    obtain ⟨hq, hc⟩ := h.alone hw
    exact ⟨by simp [hq], fun hne => absurd hw hne, by simp [hc], fun _ => ⟨hq, hc⟩⟩
  case isFalse hw =>
    have hseq := h.seq hw
    refine ⟨?_, fun _ => ?_, h.current, fun h1 => absurd h1 hw⟩
    · change p.queue ++ [barrier_tag p.seq_] = (List.range' p.started (p.queue ++ [barrier_tag p.seq_]).length).map _
      rw [List.length_append, List.length_singleton, List.range'_concat, List.map_append, ← h.queue]
      simp [hseq, calls]
    · change (p.seq_ + 1) % 2 ^ 64 = (p.started + (p.queue ++ [barrier_tag p.seq_]).length) % 2 ^ 64
      simp only [hseq, calls, List.length_append, List.length_singleton]
      omega

theorem head (h : p.Numbered w) (hc : p.current = none) (hq : p.queue = tag :: queue) :
    tag = barrier_tag (p.outcomes.length % 2 ^ 64) := by
  have := h.queue
  rw [hq, List.length_cons, List.range'_succ, List.map_cons] at this
  simpa [started, hc] using (List.cons.inj this).1

theorem start (h : p.Numbered w) (hc : p.current = none) (hq : p.queue = tag :: queue) :
    (p.start tag queue).Numbered w := by
  have hhead := h.head hc hq
  have htail := h.queue
  rw [hq, List.length_cons, List.range'_succ, List.map_cons] at htail
  refine ⟨?_, fun hw => ?_, ?_, fun hw => ?_⟩
  · simpa [Process.start, started, hc] using (List.cons.inj htail).2
  · have := h.seq hw
    simp only [calls, started, hc, hq, Process.start, Option.toList_none,
      Option.toList_some, List.length_nil, List.length_cons] at this ⊢
    omega
  · rintro t q heq
    cases heq
    exact hhead
  · rw [(h.alone hw).1] at hq
    cases hq

theorem advance (h : p.Numbered w) {r : Nat} (hc : p.current = some (tag, r)) : (p.advance tag r).Numbered w := by
  refine ⟨?_, fun hw => ?_, ?_, fun hw => ?_⟩
  · simpa [Process.advance, started, hc] using h.queue
  · simpa [Process.advance, calls, started, hc] using h.seq hw
  · rintro t q heq
    cases heq
    exact h.current _ _ hc
  · rw [(h.alone hw).2] at hc
    cases hc

theorem finish (h : p.Numbered w) {r : Nat} (hc : p.current = some (tag, r)) (returned : Bool) :
    (p.finish returned).Numbered w := by
  refine ⟨?_, fun hw => ?_, by simp [Process.finish], fun hw => ?_⟩
  · simpa [Process.finish, started, hc] using h.queue
  · simpa [Process.finish, calls, started, hc] using h.seq hw
  · rw [(h.alone hw).2] at hc
    cases hc

end Process.Numbered

/-! ## Safety -/

structure Inv (s : State w) : Prop where
  numbered : ∀ r, (s.process r).Numbered w
  fits : ∀ r, (s.process r).calls ≤ 2 ^ 64
  /-- A key of barrier `k` is in the store only if its rank has started barrier `k`. -/
  keys : ∀ k q, k < 2 ^ 64 → barrier_key (barrier_tag k) q ∈ s.store →
    ∃ hq : q < w, k < (s.process ⟨q, hq⟩).started
  /-- The ranks that the current barrier has passed have started it. -/
  passed : ∀ r tag n, (s.process r).current = some (tag, n) →
    ∀ q : Fin w, q.val < n → (s.process r).outcomes.length < (s.process q).started
  returned : ∀ r k, s.Returned r k → ∀ q, k < (s.process q).started

namespace Inv

variable {s : State w} {r : Fin w} {p : Process} {tag : String}

theorem init_inv (h : init s) : Inv s := by
  subst h
  refine ⟨fun r => ⟨rfl, fun _ => rfl, ?_, fun _ => ⟨rfl, rfl⟩⟩, ?_, ?_, ?_, ?_⟩ <;>
    simp [calls, started, State.Returned]

theorem started_le_set (hle : (s.process r).started ≤ p.started) (q : Fin w) :
    (s.process q).started ≤ ((s.set r p).process q).started := by
  by_cases hq : q = r
  · subst hq
    simpa using hle
  · simp [hq]

/-- What a step of one rank has to show. -/
theorem set (h : Inv s) (hn : p.Numbered w) (hfits : p.calls ≤ 2 ^ 64)
    (hle : (s.process r).started ≤ p.started)
    (hpassed : ∀ tag n, p.current = some (tag, n) → ∀ q : Fin w, q.val < n →
      p.outcomes.length < ((s.set r p).process q).started)
    (hreturned : ∀ k, p.outcomes[k]? = some true → ∀ q, k < ((s.set r p).process q).started) :
    Inv (s.set r p) := by
  have hmono := started_le_set hle
  have hp := s.process_set_self r p
  have hother : ∀ r', r' ≠ r → (s.set r p).process r' = s.process r' := fun _ => s.process_set_of_ne r p
  refine ⟨fun r' => ?_, fun r' => ?_, fun k q hk hkey => ?_, fun r' => ?_, fun r' => ?_⟩
  · by_cases hr' : r' = r
    · rwa [hr', hp]
    · rw [hother r' hr']
      exact h.numbered r'
  · by_cases hr' : r' = r
    · rwa [hr', hp]
    · rw [hother r' hr']
      exact h.fits r'
  · obtain ⟨hq, hlt⟩ := h.keys k q hk hkey
    exact ⟨hq, hlt.trans_le (hmono _)⟩
  · by_cases hr' : r' = r
    · rwa [hr', hp]
    · rw [hother r' hr']
      exact fun tag n hc q hq => (h.passed r' tag n hc q hq).trans_le (hmono q)
  · by_cases hr' : r' = r
    · intro k hk
      rw [hr', State.Returned, hp] at hk
      exact hreturned k hk
    · intro k hk q
      rw [State.Returned, hother r' hr'] at hk
      exact (h.returned r' k hk q).trans_le (hmono q)

theorem store (h : Inv s) {key : String}
    (hkey : ∀ k q, k < 2 ^ 64 → barrier_key (barrier_tag k) q = key →
      ∃ hq : q < w, k < (s.process ⟨q, hq⟩).started) : Inv (s.put key) := by
  refine ⟨h.numbered, h.fits, fun k q hk hmem => ?_, h.passed, h.returned⟩
  cases List.mem_cons.mp hmem with
  | inl heq => exact hkey k q hk heq
  | inr hmem => exact h.keys k q hk hmem

theorem call (h : Inv s) (hfits : (s.process r).calls < 2 ^ 64) :
    Inv (s.set r ((s.process r).call w)) := by
  have hcalls : ((s.process r).call w).calls = (s.process r).calls + 1 := by
    unfold Process.call
    split <;> simp [calls, started] <;> omega
  have hle : (s.process r).started ≤ ((s.process r).call w).started := by
    unfold Process.call
    split <;> simp [started]
  refine h.set (h.numbered r).call (by omega) hle ?_ ?_
  · intro tag n hc q hq
    by_cases hw : w = 1
    · have := ((h.numbered r).alone hw).2
      simp [Process.call, hw, this] at hc
    · rw [Process.call, if_neg hw] at hc ⊢
      exact (h.passed r tag n hc q hq).trans_le (started_le_set (by simp [started]) q)
  · intro k hk q
    by_cases hw : w = 1
    · subst hw
      obtain rfl : q = r := Subsingleton.elim q r
      obtain ⟨hlt, -⟩ := List.getElem?_eq_some_iff.mp hk
      simp only [State.process_set_self, started]
      omega
    · rw [Process.call, if_neg hw] at hk ⊢
      exact (h.returned r k hk q).trans_le (started_le_set (by simp [started]) q)

theorem start (h : Inv s) {queue : List String} (hc : (s.process r).current = none)
    (hq : (s.process r).queue = tag :: queue) :
    Inv ((s.set r ((s.process r).start tag queue)).put (barrier_key tag r)) := by
  have hle : (s.process r).started ≤ ((s.process r).start tag queue).started := by
    simp [started, Process.start, hc]
  have hset : Inv (s.set r ((s.process r).start tag queue)) := by
    refine h.set ((h.numbered r).start hc hq) ?_ hle ?_ ?_
    · have := h.fits r
      simp only [calls, started, Process.start, hc, hq, Option.toList_none,
        Option.toList_some, List.length_nil, List.length_cons] at this ⊢
      omega
    · rintro _ _ heq q hlt
      cases heq
      omega
    · exact fun k hk q => (h.returned r k hk q).trans_le (started_le_set hle q)
  refine hset.store fun k q hk hkey => ?_
  -- the number on the new key is the rank's count of ended barriers
  rw [(h.numbered r).head hc hq] at hkey
  obtain ⟨rfl, rfl⟩ := barrier_key_injective hkey
  refine ⟨r.isLt, ?_⟩
  simp only [Fin.eta, State.process_set_self, started, Process.start, Option.toList_some, List.length_singleton]
  have := Nat.mod_le (s.process r).outcomes.length (2 ^ 64)
  omega

/-- The loop goes on to the next rank, when the one it looked at has started. -/
theorem advance (h : Inv s) {q : Fin w} (hc : (s.process r).current = some (tag, q.val))
    (hq : (s.process r).outcomes.length < (s.process q).started) :
    Inv (s.set r ((s.process r).advance tag q)) := by
  have hstarted : ((s.process r).advance tag q).started = (s.process r).started := by
    simp [started, Process.advance, hc]
  have hle := started_le_set hstarted.ge
  refine h.set ((h.numbered r).advance hc) ?_ hstarted.ge ?_ ?_
  · rw [calls, hstarted]
    exact h.fits r
  · rintro _ _ heq q' hlt
    cases heq
    rcases Nat.lt_succ_iff_lt_or_eq.mp hlt with hlt | heq
    · exact (h.passed r tag q hc q' hlt).trans_le (hle q')
    · rw [Fin.ext heq]
      exact hq.trans_le (hle q)
  · exact fun k hk q' => (h.returned r k hk q').trans_le (hle q')

theorem finish (h : Inv s) {n : Nat} (hc : (s.process r).current = some (tag, n)) {returned : Bool}
    (hn : returned = true → n = w) : Inv (s.set r ((s.process r).finish returned)) := by
  have hstarted : ((s.process r).finish returned).started = (s.process r).started := by
    simp [started, Process.finish, hc]
  have hle := started_le_set hstarted.ge
  refine h.set ((h.numbered r).finish hc returned) ?_ hstarted.ge (by simp [Process.finish]) ?_
  · rw [calls, hstarted]
    exact h.fits r
  · intro k hk q
    change ((s.process r).outcomes ++ [returned])[k]? = some true at hk
    rw [List.getElem?_append] at hk
    split at hk
    case isTrue => exact (h.returned r k hk q).trans_le (hle q)
    case isFalse hlen =>
      -- the outcome is the one of the barrier that ends here
      obtain ⟨hk0, hret⟩ : k - (s.process r).outcomes.length = 0 ∧ returned = true := by
        simpa [List.getElem?_singleton] using hk
      have hlt := h.passed r tag n hc q (hn hret ▸ q.isLt)
      have := hle q
      omega

theorem step {s' : State w} {a : Act w} (h : Inv s) (hfits : Fits s a) (hs : Step s a s') : Inv s' := by
  cases hs with
  | call r => exact h.call hfits
  | start r hc hq => exact h.start hc hq
  | skip r hc =>
    refine h.advance hc ?_
    simp [started, hc]
  | @wait r q tag hc hne hkey =>
    refine h.advance hc ?_
    -- the counter has not wrapped, so the key is the one of this barrier
    have hlt : (s.process r).outcomes.length < 2 ^ 64 := by
      have := h.fits r
      simp only [calls, started, hc, Option.toList_some, List.length_singleton] at this
      omega
    rw [(h.numbered r).current tag q hc, Nat.mod_eq_of_lt hlt] at hkey
    exact (h.keys _ _ hlt hkey).2
  | timeout r q hc hne => exact h.finish hc nofun
  | finish r hc => exact h.finish hc fun _ => rfl
  | publish r hkey =>
    refine h.store fun k q _ heq => ?_
    rcases hkey with rfl | rfl
    · exact absurd heq (barrier_key_ne_endpoint_key _ _ _)
    · exact absurd heq (barrier_key_ne_peer_key _ _ _)

end Inv

/-- **Barrier safety**, as long as no rank calls `barrier` more than 2^64 times:
    a barrier that returns has been started by every rank, and no key but the
    one a rank sets in its own `k`-th barrier satisfies a wait of barrier `k`. -/
theorem barrier_safe {s : State w} (h : (group w).Reach Fits s) :
    (∀ r k, s.Returned r k → ∀ q, k < (s.process q).started) ∧
      ∀ k q, k < 2 ^ 64 → barrier_key (barrier_tag k) q ∈ s.store →
        ∃ hq : q < w, k < (s.process ⟨q, hq⟩).started := by
  have hinv : Inv s := h.invariant (fun _ => Inv.init_inv) fun _ _ _ => Inv.step
  exact ⟨hinv.returned, hinv.keys⟩

/-! ## Runs -/

/-- A rank that has passed `n` barriers and has called no other. -/
def Process.after (n : Nat) : Process := ⟨n % 2 ^ 64, [], none, List.replicate n true⟩

/-- A rank in its barrier number `n`, about to look at rank `q`. -/
def Process.inside (n q : Nat) : Process :=
  ⟨(n + 1) % 2 ^ 64, [], some (barrier_tag (n % 2 ^ 64), q), List.replicate n true⟩

section Runs

variable {ok : State w → Act w → Prop} {s : State w} {r : Fin w} {n : Nat}

/-- A rank enters its next barrier. -/
theorem reach_inside (hok : ∀ s a, (∀ r, a ≠ .call r) → ok s a) (hw : w ≠ 1)
    (h : (group w).Reach ok s) (hcall : ok s (.call r)) (hr : s.process r = .after n) :
    (group w).Reach ok ((s.set r (.inside n 0)).put (barrier_key (barrier_tag (n % 2 ^ 64)) r)) := by
  have h1 := h.step hcall (Step.call r)
  have hcalled : ((s.set r ((s.process r).call w)).process r) =
      ⟨(n + 1) % 2 ^ 64, [barrier_tag (n % 2 ^ 64)], none, List.replicate n true⟩ := by
    simp [hr, Process.call, hw, Process.after]
  have h2 := h1.next (.start r (by rw [hcalled]) (by rw [hcalled])) (hok _ _ (by simp))
  rwa [hcalled, State.set_set] at h2

/-- A rank leaves its barrier if the keys of the other ranks are there. -/
theorem reach_after (hok : ∀ s a, (∀ r, a ≠ .call r) → ok s a) (h : (group w).Reach ok s) {q : Nat}
    (hq : q ≤ w) (hr : s.process r = .inside n q)
    (hkeys : ∀ q' : Fin w, q' ≠ r → barrier_key (barrier_tag (n % 2 ^ 64)) q' ∈ s.store) :
    (group w).Reach ok (s.set r (.after (n + 1))) := by
  -- on the number of ranks that the loop has still to look at
  induction hd : w - q generalizing s q with
  | zero =>
    obtain rfl : q = w := by omega
    have hfinish := h.next (.finish r (by rw [hr]; rfl)) (hok _ _ (by simp))
    simpa [hr, Process.finish, Process.inside, Process.after, List.replicate_succ'] using hfinish
  | succ d ih =>
    have hadvance : (group w).Reach ok (s.set r (.inside n (q + 1))) := by
      by_cases heq : q = r.val
      · subst heq
        have hskip := h.next (.skip r (by rw [hr]; rfl)) (hok _ _ (by simp))
        simpa [hr, Process.inside, Process.advance] using hskip
      · have hne : (⟨q, by omega⟩ : Fin w) ≠ r := fun h => heq (congrArg Fin.val h)
        have hwait := h.next (.wait r ⟨q, by omega⟩ (by rw [hr]; rfl) hne (hkeys _ hne)) (hok _ _ (by simp))
        simpa [hr, Process.inside, Process.advance] using hwait
    have := ih hadvance (q := q + 1) (by omega) (by simp) hkeys (by omega)
    rwa [State.set_set] at this

end Runs

/-- Two ranks can pass any number of barriers together, and their keys stay. -/
theorem reach_together (n : Nat) (hn : n ≤ 2 ^ 64) : ∃ s : State 2, (group 2).Reach Fits s ∧
    (∀ r, s.process r = .after n) ∧
      ∀ k < n, ∀ r : Fin 2, barrier_key (barrier_tag (k % 2 ^ 64)) r ∈ s.store := by
  have hok : ∀ (s : State 2) (a : Act 2), (∀ r, a ≠ .call r) → Fits s a := by
    intro s a ha
    cases a <;> first | trivial | exact absurd rfl (ha _)
  induction n with
  | zero => exact ⟨_, .init rfl, fun _ => rfl, by omega⟩
  | succ n ih =>
    obtain ⟨s, h, hs, hkeys⟩ := ih (by omega)
    have hcalls : (Process.after n).calls < 2 ^ 64 := by
      simp only [calls, started, Process.after, List.length_replicate, Option.toList_none,
        List.length_nil]
      omega
    have h0 := reach_inside (r := 0) hok (by omega) h (by rw [Fits, hs]; exact hcalls) (hs 0)
    have h1 := reach_inside (r := 1) (n := n) hok (by omega) h0 (by simpa [Fits, hs] using hcalls)
      (by simp [hs])
    have h2 := reach_after (r := 0) (n := n) (q := 0) hok h1 (by omega) (by simp)
      (by simp [Fin.forall_fin_two])
    have h3 := reach_after (r := 1) (n := n) (q := 0) hok h2 (by omega) (by simp)
      (by simp [Fin.forall_fin_two])
    refine ⟨_, h3, ?_, ?_⟩
    · simp [Fin.forall_fin_two]
    · intro k hk r
      rcases Nat.lt_succ_iff_lt_or_eq.mp hk with hk | rfl
      · simp only [State.store_set, State.store_put]
        exact List.mem_cons_of_mem _ (List.mem_cons_of_mem _ (hkeys k hk r))
      · revert r
        simp [Fin.forall_fin_two]

theorem barrier_safe_once : ∃ s : State 2, s.Returned 0 0 ∧ ∀ q, 0 < (s.process q).started := by
  obtain ⟨s, h, hs, -⟩ := reach_together 1 (by omega)
  have hret : s.Returned 0 0 := by
    rw [State.Returned, hs]
    rfl
  exact ⟨s, hret, (barrier_safe h).1 0 0 hret⟩

/-- Once the counter has wrapped, rank 0 finds the keys of barrier 0 and returns
    from a barrier that rank 1 has not started. -/
theorem barrier_wraps : ∃ s : State 2, (group 2).Reachable s ∧ s.Returned 0 (2 ^ 64) ∧
    ¬ 2 ^ 64 < (s.process 1).started := by
  obtain ⟨N, hN⟩ : ∃ N, N = 2 ^ 64 := ⟨_, rfl⟩
  obtain ⟨s, h, hs, hkeys⟩ := reach_together N hN.le
  have h0 := reach_inside (r := 0) (fun _ _ _ => trivial) (by omega) h.reachable trivial (hs 0)
  have hstale : N % 2 ^ 64 = 0 % 2 ^ 64 := by omega
  have h1 := reach_after (r := 0) (n := N) (q := 0) (fun _ _ _ => trivial) h0 (by omega) (by simp)
    fun q _ => List.mem_cons_of_mem _ (hstale ▸ hkeys 0 (by omega) q)
  refine ⟨_, h1, ?_, ?_⟩
  · rw [← hN]
    simp [State.Returned, Process.after]
  · rw [← hN]
    simp [hs, started, Process.after]

end Mccl.Rendezvous
