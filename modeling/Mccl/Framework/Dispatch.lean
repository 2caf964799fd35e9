import Mathlib.Algebra.Order.BigOperators.Group.List
import Mccl.Framework.Lockstep

/-! # Calling Threads and Engines

    Every rank has a calling thread and an engine thread. A call is made
    either inline, by the calling thread itself, or by submitting a task to the
    engine, which runs its tasks one at a time and in the order of submission.
    Both threads work on the same memory and the same channels.

    * **Semantics** (`Group.Step`): any thread of any rank takes a step. A
      channel end is guarded by a mutex, which a call takes with its first byte
      and gives back with its last.
    * **Sequential ranks** (`inOrder`): all calls of a rank, one after the other.
    * **Simulation** (`Simulates.step`): if inline calls are only started while
      the engine is idle, every step is one of the sequential ranks, or none.
    * `Simulates.terminates`, `Group.EngineOnly.progress`: the group runs
      forever, or without inline calls gets stuck, only if the sequential ranks
      do. -/

namespace ForkJoin

open Function

variable {ι κ β τ : Type}

/-! ## Calls -/

/-- What a call of the interface does on its rank. -/
inductive Call (ι κ β τ : Type) where
  /-- The engine runs the task. -/
  | submit (task : Proc ι κ β τ Unit)
  /-- The calling thread runs the body before it returns. -/
  | inline (body : Proc ι κ β τ Unit)

def Call.prog : Call ι κ β τ → Proc ι κ β τ Unit
  | submit task => task
  | inline body => body

/-- An exception ends the call and nothing else. -/
def guarded (p : Proc ι κ β τ Unit) : Proc ι κ β τ Unit := p.tryCatch fun _ => .ret ()

def setTag (k : Nat) (s : Store κ β τ) : Store κ β τ := { s with tag := k }

/-- The programs one after the other, each with its tag. -/
def inOrder : List (Nat × Proc ι κ β τ Unit) → Proc ι κ β τ Unit
  | [] => .ret ()
  | (k, p) :: ps => do
    .modify (setTag k)
    guarded p
    inOrder ps

inductive Party where
  | engine | caller
  deriving DecidableEq, Repr

/-- A rank with its two threads. -/
structure Member (ι κ β τ : Type) where
  mem : κ → β
  aux : τ
  /-- The rest of the task that the engine is running. -/
  engine : Proc ι κ β τ Unit
  engine_tag : Nat
  /-- The tasks that the engine has not taken yet. -/
  queue : List (Nat × Proc ι κ β τ Unit)
  /-- The rest of the inline call that is being made. -/
  caller : Proc ι κ β τ Unit
  caller_tag : Nat
  /-- The calls that the calling thread has still to make. -/
  calls : List (Nat × Call ι κ β τ)

namespace Member

/-- One of the threads, as a rank of its own. -/
def node (m : Member ι κ β τ) : Party → Node ι κ β τ
  | .engine => ⟨⟨m.mem, m.aux, m.engine_tag⟩, m.engine⟩
  | .caller => ⟨⟨m.mem, m.aux, m.caller_tag⟩, m.caller⟩

def setNode (m : Member ι κ β τ) (n : Node ι κ β τ) : Party → Member ι κ β τ
  | .engine =>
    { m with mem := n.store.mem, aux := n.store.aux, engine_tag := n.store.tag, engine := n.prog }
  | .caller =>
    { m with mem := n.store.mem, aux := n.store.aux, caller_tag := n.store.tag, caller := n.prog }

/-- A task has been submitted. -/
def submitted (m : Member ι κ β τ) (k : Nat) (t : Proc ι κ β τ Unit)
    (cs : List (Nat × Call ι κ β τ)) : Member ι κ β τ :=
  { m with queue := m.queue ++ [(k, t)], calls := cs }

/-- An inline call has been started. -/
def inlined (m : Member ι κ β τ) (k : Nat) (p : Proc ι κ β τ Unit)
    (cs : List (Nat × Call ι κ β τ)) : Member ι κ β τ :=
  { m with caller := guarded p, caller_tag := k, calls := cs }

/-- The engine has taken a task. -/
def taken (m : Member ι κ β τ) (k : Nat) (t : Proc ι κ β τ Unit)
    (ts : List (Nat × Proc ι κ β τ Unit)) : Member ι κ β τ :=
  { m with engine := guarded t, engine_tag := k, queue := ts }

@[simp] theorem setNode_calls (m : Member ι κ β τ) (n : Node ι κ β τ) (who : Party) :
    (m.setNode n who).calls = m.calls := by
  cases who <;> rfl

/-- The engine has nothing to do. -/
def Idle (m : Member ι κ β τ) : Prop := m.engine = .ret () ∧ m.queue = []

/-- What has not been started yet, in the order of the calls. -/
def todo (m : Member ι κ β τ) : List (Nat × Proc ι κ β τ Unit) :=
  m.queue ++ m.calls.map fun c => (c.1, c.2.prog)

/-- All calls have been made and have returned. -/
structure Finished (m : Member ι κ β τ) : Prop where
  engine : m.engine = .ret ()
  queue : m.queue = []
  caller : m.caller = .ret ()
  calls : m.calls = []

end Member

/-! ## Mutexes -/

/-- Who holds the mutexes of the channel ends of each rank. -/
structure Locks (ι : Type) where
  send : ι → ι → Option Party
  recv : ι → ι → Option Party

/-- The call that thread `i` is in has bytes left. -/
def Node.inCall (n : Node ι κ β τ) : Option Nat → Bool
  | none => false
  | some i =>
    match n.prog with
    | .par ts _ =>
      match ts[i]? with
      | some (.send _ (_ :: _) :: _) => true
      | some (.recv _ (_ :: _) :: _) => true
      | _ => false
    | _ => false

section semantics
variable [DecidableEq ι]

def setLock (l : ι → ι → Option Party) (r q : ι) (who : Option Party) : ι → ι → Option Party :=
  Function.update l r (Function.update (l r) q who)

/-- A byte is moved by whoever holds the mutex of the channel end. -/
inductive LockStep (r : ι) (who : Party) (inCall : Bool) :
    Event ι β → Locks ι → Locks ι → Prop where
  | tau (l : Locks ι) : LockStep r who inCall .tau l l
  | out {l : Locks ι} {q : ι} {x : Nat × β} (h : l.send r q = none ∨ l.send r q = some who) :
      LockStep r who inCall (.out q x) l
        { l with send := setLock l.send r q (if inCall then some who else none) }
  | inp {l : Locks ι} {q : ι} {x : Nat × β} (h : l.recv r q = none ∨ l.recv r q = some who) :
      LockStep r who inCall (.inp q x) l
        { l with recv := setLock l.recv r q (if inCall then some who else none) }

/-! ## Groups -/

structure Group (ι κ β τ : Type) where
  member : ι → Member ι κ β τ
  chan : ι → ι → List (Nat × β)
  locks : Locks ι
  /-- Every byte so far was received under the tag it was sent with. -/
  matched : Prop

def Group.setMember (g : Group ι κ β τ) (r : ι) (m : Member ι κ β τ) : Group ι κ β τ :=
  { g with member := Function.update g.member r m }

@[simp] theorem Group.setMember_self (g : Group ι κ β τ) (r : ι) (m : Member ι κ β τ) :
    (g.setMember r m).member r = m := by
  simp [Group.setMember]

variable {r : ι} {m : Member ι κ β τ} {n : Node ι κ β τ} {g g' : Group ι κ β τ} {x : Net ι κ β τ}
  {k : Nat} {cap : ℕ∞}

theorem Group.setMember_ne (g : Group ι κ β τ) {q : ι} (m : Member ι κ β τ) (h : q ≠ r) :
    (g.setMember r m).member q = g.member q := by
  simp [Group.setMember, h]

variable [DecidableEq κ]

inductive Group.Step (cap : ℕ∞) : Group ι κ β τ → Group ι κ β τ → Prop where
  /-- The calling thread submits a task. -/
  | submit {g : Group ι κ β τ} {r : ι} {k : Nat} {t : Proc ι κ β τ Unit}
      {cs : List (Nat × Call ι κ β τ)} (hc : (g.member r).caller = .ret ())
      (h : (g.member r).calls = (k, .submit t) :: cs) :
      Step cap g (g.setMember r ((g.member r).submitted k t cs))
  /-- The calling thread starts an inline call. -/
  | inline {g : Group ι κ β τ} {r : ι} {k : Nat} {p : Proc ι κ β τ Unit}
      {cs : List (Nat × Call ι κ β τ)} (hc : (g.member r).caller = .ret ())
      (h : (g.member r).calls = (k, .inline p) :: cs) :
      Step cap g (g.setMember r ((g.member r).inlined k p cs))
  /-- The engine takes the oldest task. -/
  | take {g : Group ι κ β τ} {r : ι} {k : Nat} {t : Proc ι κ β τ Unit}
      {ts : List (Nat × Proc ι κ β τ Unit)} (he : (g.member r).engine = .ret ())
      (h : (g.member r).queue = (k, t) :: ts) :
      Step cap g (g.setMember r ((g.member r).taken k t ts))
  /-- One of the two threads takes a step. -/
  | run {g : Group ι κ β τ} {r : ι} {who : Party} {i : Option Nat} {e : Event ι β}
      {n : Node ι κ β τ} {c : ι → ι → List (Nat × β)} {l : Locks ι}
      (hn : NodeStep ((g.member r).node who) i e n) (hc : ChanStep cap r e g.chan c)
      (hl : LockStep r who (n.inCall i) e g.locks l) :
      Step cap g ⟨Function.update g.member r ((g.member r).setNode n who), c, l,
        g.matched ∧ e.Fits ((g.member r).node who).store.tag⟩

/-- The calling threads are about to make the calls. -/
def Group.init (st : ι → Store κ β τ) (calls : ι → List (Nat × Call ι κ β τ)) :
    Group ι κ β τ where
  member := fun r => ⟨(st r).mem, (st r).aux, .ret (), 0, [], .ret (), 0, calls r⟩
  chan := fun _ _ => []
  locks := ⟨fun _ _ => none, fun _ _ => none⟩
  matched := True

def Group.Finished (g : Group ι κ β τ) : Prop := ∀ r, (g.member r).Finished

/-- The step does not start an inline call on a rank whose engine is busy. -/
def Waits (g g' : Group ι κ β τ) : Prop :=
  ∀ r k p cs, (g.member r).calls = (k, .inline p) :: cs → (g'.member r).calls = cs →
    (g.member r).Idle

abbrev Group.Reaches (cap : ℕ∞) : Group ι κ β τ → Group ι κ β τ → Prop :=
  Relation.ReflTransGen (Group.Step cap)

/-- Reachable by steps that all wait for the engine. -/
abbrev Group.ReachesWaiting (cap : ℕ∞) : Group ι κ β τ → Group ι κ β τ → Prop :=
  Relation.ReflTransGen fun g g' => Group.Step cap g g' ∧ Waits g g'

/-! ## Simulation -/

/-- The sequential rank `n` is where the member `m` is: at most one of the
    two threads is running. -/
inductive Follows (m : Member ι κ β τ) (n : Node ι κ β τ) : Prop where
  | engine (t : Nat) (hc : m.caller = .ret ()) (ht : m.engine = .ret () ∨ t = m.engine_tag)
      (hn : n = ⟨⟨m.mem, m.aux, t⟩, m.engine >>= fun _ => inOrder m.todo⟩)
  | caller (t : Nat) (hi : m.Idle) (ht : m.caller = .ret () ∨ t = m.caller_tag)
      (hn : n = ⟨⟨m.mem, m.aux, t⟩, m.caller >>= fun _ => inOrder m.todo⟩)

structure Simulates (g : Group ι κ β τ) (x : Net ι κ β τ) : Prop where
  follows : ∀ r, Follows (g.member r) (x.node r)
  chan : x.chan = g.chan
  matched : x.matched ↔ g.matched

/-- The sequential ranks at the start of the calls. -/
def sequential (st : ι → Store κ β τ) (calls : ι → List (Nat × Call ι κ β τ)) : Net ι κ β τ :=
  quiet fun r => ⟨st r, inOrder ((calls r).map fun c => (c.1, c.2.prog))⟩

omit [DecidableEq ι] [DecidableEq κ] in
theorem simulates_init (st : ι → Store κ β τ) (calls : ι → List (Nat × Call ι κ β τ)) :
    Simulates (Group.init st calls) (sequential st calls) where
  follows := fun r => .engine (st r).tag rfl (.inl rfl) rfl
  chan := rfl
  matched := Iff.rfl

omit [DecidableEq ι] [DecidableEq κ] in
/-- While nothing is running, the rank is in front of its next call. -/
theorem Follows.idle (h : Follows m n) (he : m.engine = .ret ()) (hc : m.caller = .ret ()) :
    ∃ t, n = ⟨⟨m.mem, m.aux, t⟩, inOrder m.todo⟩ := by
  cases h with
  | engine t _ _ hn => exact ⟨t, by rw [hn, he]; rfl⟩
  | caller t _ _ hn => exact ⟨t, by rw [hn, hc]; rfl⟩

omit [DecidableEq ι] in
/-- The step that sets the tag of the next call. -/
theorem step_inOrder (s : Store κ β τ) (k : Nat) (p : Proc ι κ β τ Unit)
    (ps : List (Nat × Proc ι κ β τ Unit)) :
    NodeStep (β := β) ⟨s, inOrder ((k, p) :: ps)⟩ none .tau
      ⟨setTag k s, guarded p >>= fun _ => inOrder ps⟩ :=
  .act

omit [DecidableEq κ] in
theorem follows_update (h : Simulates g x) (hr : Follows m n) (q : ι) :
    Follows (update g.member r m q) (update x.node r n q) := by
  by_cases hq : q = r
  · subst hq
    simpa using hr
  · simpa [hq] using h.follows q

/-- What a step does to the calls that are still to be made. -/
structure CallStep (r : ι) (g g' : Group ι κ β τ) : Prop where
  here : (g'.member r).calls.length < (g.member r).calls.length
  others : ∀ q, q ≠ r → (g'.member q).calls = (g.member q).calls

/-- The sequential ranks make the step as well, or it just submits a task. -/
structure Simulates.Next (cap : ℕ∞) (g g' : Group ι κ β τ) (x x' : Net ι κ β τ) : Prop where
  sim : Simulates g' x'
  step : Step cap x x' ∨ x' = x ∧ ∃ r, CallStep r g g'

omit [DecidableEq κ] in
theorem Simulates.submit (h : Simulates g x)
    {t : Proc ι κ β τ Unit} {cs : List (Nat × Call ι κ β τ)} (hc : (g.member r).caller = .ret ())
    (hcalls : (g.member r).calls = (k, .submit t) :: cs) :
    Simulates (g.setMember r ((g.member r).submitted k t cs)) x := by
  have htodo : ((g.member r).submitted k t cs).todo = (g.member r).todo := by
    simp [Member.todo, Member.submitted, hcalls, Call.prog]
  have hr : Follows ((g.member r).submitted k t cs) (x.node r) := by
    cases h.follows r with
    | engine t' _ ht hn => exact .engine t' hc ht (by rw [hn, htodo]; rfl)
    | caller t' hi _ hn =>
      -- The rank was idle, and the task is the next thing it does.
      refine .engine t' hc (.inl hi.1) ?_
      rw [hn, htodo, hc]
      simp only [Member.submitted, hi.1]
  refine ⟨fun q => ?_, h.chan, h.matched⟩
  have := follows_update (r := r) h hr q
  rwa [update_eq_self] at this

theorem Simulates.inline (h : Simulates g x)
    {p : Proc ι κ β τ Unit} {cs : List (Nat × Call ι κ β τ)}
    (hidle : (g.member r).Idle) (hc : (g.member r).caller = .ret ())
    (hcalls : (g.member r).calls = (k, .inline p) :: cs) :
    ∃ x', Simulates (g.setMember r ((g.member r).inlined k p cs)) x' ∧ Step cap x x' := by
  obtain ⟨t, hn⟩ := (h.follows r).idle hidle.1 hc
  have htodo : (g.member r).todo = (k, p) :: cs.map fun c => (c.1, c.2.prog) := by
    simp [Member.todo, hcalls, hidle.2, Call.prog]
  rw [htodo] at hn
  have hnode := step_inOrder (ι := ι) ⟨(g.member r).mem, (g.member r).aux, t⟩ k p
    (cs.map fun c => (c.1, c.2.prog))
  refine ⟨_, ?_, .of_eq hn hnode (.tau _) rfl⟩
  refine ⟨fun q => ?_, h.chan, ?_⟩
  · refine follows_update h (?_ : Follows ((g.member r).inlined k p cs) _) q
    refine .caller k hidle (.inr rfl) ?_
    simp [Member.todo, Member.inlined, hidle.2, setTag]
  · simpa [Event.Fits, Group.setMember] using h.matched

theorem Simulates.take (h : Simulates g x)
    {t : Proc ι κ β τ Unit} {ts : List (Nat × Proc ι κ β τ Unit)}
    (he : (g.member r).engine = .ret ()) (hqueue : (g.member r).queue = (k, t) :: ts) :
    ∃ x', Simulates (g.setMember r ((g.member r).taken k t ts)) x' ∧ Step cap x x' := by
  cases h.follows r with
  | caller t' hi _ _ => simp [hi.2] at hqueue
  | engine t' hc _ hn =>
    have hn' : x.node r = ⟨⟨(g.member r).mem, (g.member r).aux, t'⟩,
        inOrder ((k, t) :: (ts ++ (g.member r).calls.map fun c => (c.1, c.2.prog)))⟩ := by
      rw [hn, he, Member.todo, hqueue]
      rfl
    have hnode := step_inOrder (ι := ι) ⟨(g.member r).mem, (g.member r).aux, t'⟩ k t
      (ts ++ (g.member r).calls.map fun c => (c.1, c.2.prog))
    refine ⟨_, ?_, .of_eq hn' hnode (.tau _) rfl⟩
    refine ⟨fun q => ?_, h.chan, ?_⟩
    · refine follows_update h (?_ : Follows ((g.member r).taken k t ts) _) q
      exact .engine k hc (.inr rfl) rfl
    · simpa [Event.Fits, Group.setMember] using h.matched

theorem Simulates.run (h : Simulates g x)
    {who : Party} {i : Option Nat} {e : Event ι β} {c : ι → ι → List (Nat × β)}
    (l : Locks ι) (hn : NodeStep ((g.member r).node who) i e n) (hc : ChanStep cap r e g.chan c) :
    ∃ x', Simulates ⟨update g.member r ((g.member r).setNode n who), c, l,
      g.matched ∧ e.Fits ((g.member r).node who).store.tag⟩ x' ∧ Step cap x x' := by
  rw [← h.chan] at hc
  cases who with
  | engine =>
    cases h.follows r with
    | caller t hi _ _ =>
      simp only [Member.node, hi.1] at hn
      cases hn
    | engine t hcaller ht hx =>
      obtain rfl : t = (g.member r).engine_tag := by
        refine ht.resolve_left fun hret => ?_
        simp only [Member.node, hret] at hn
        cases hn
      have hnode := hn.context (Context.bind fun _ => inOrder (g.member r).todo)
      refine ⟨_, ?_, .of_eq hx hnode hc rfl⟩
      refine ⟨fun q => ?_, rfl, ?_⟩
      · refine follows_update h (?_ : Follows ((g.member r).setNode n .engine) _) q
        exact .engine n.store.tag hcaller (.inr rfl) rfl
      · exact and_congr_left fun _ => h.matched
  | caller =>
    cases h.follows r with
    | engine t hcaller _ _ =>
      simp only [Member.node, hcaller] at hn
      cases hn
    | caller t hi ht hx =>
      obtain rfl : t = (g.member r).caller_tag := by
        refine ht.resolve_left fun hret => ?_
        simp only [Member.node, hret] at hn
        cases hn
      have hnode := hn.context (Context.bind fun _ => inOrder (g.member r).todo)
      refine ⟨_, ?_, .of_eq hx hnode hc rfl⟩
      refine ⟨fun q => ?_, rfl, ?_⟩
      · refine follows_update h (?_ : Follows ((g.member r).setNode n .caller) _) q
        exact .caller n.store.tag hi (.inr rfl) rfl
      · exact and_congr_left fun _ => h.matched

/-- **Simulation.** A step that waits for the engine is a step of the
    sequential ranks, or submits a task, which they have in their list already. -/
theorem Simulates.step (h : Simulates g x)
    (hstep : Group.Step cap g g') (hwait : Waits g g') : ∃ x', Simulates.Next cap g g' x x' := by
  cases hstep with
  | @submit r k t cs hc hcalls =>
    refine ⟨x, h.submit hc hcalls, .inr ⟨rfl, r, ?_, fun q hq => ?_⟩⟩
    · simp [Member.submitted, hcalls]
    · rw [Group.setMember_ne _ _ hq]
  | @inline r k p cs hc hcalls =>
    have hidle : (g.member r).Idle := hwait r k p cs hcalls (by simp [Member.inlined])
    obtain ⟨x', hsim, hx⟩ := h.inline hidle hc hcalls
    exact ⟨x', hsim, .inl hx⟩
  | @take r k t ts he hqueue =>
    obtain ⟨x', hsim, hx⟩ := h.take he hqueue
    exact ⟨x', hsim, .inl hx⟩
  | @run r who i e n c l hn hc hl =>
    obtain ⟨x', hsim, hx⟩ := h.run l hn hc
    exact ⟨x', hsim, .inl hx⟩

/-- A run of the group that waits for the engines is a run of the sequential
    ranks. -/
theorem Simulates.reaches (h : Simulates g x)
    (hreach : Group.ReachesWaiting cap g g') : ∃ x', Reaches cap x x' ∧ Simulates g' x' := by
  induction hreach with
  | refl => exact ⟨x, .refl, h⟩
  | tail _ hstep ih =>
    obtain ⟨x₁, hx₁, hsim₁⟩ := ih
    obtain ⟨x₂, hnext⟩ := hsim₁.step hstep.1 hstep.2
    rcases hnext.step with hx₂ | ⟨rfl, -⟩
    · exact ⟨x₂, hx₁.tail hx₂, hnext.sim⟩
    · exact ⟨x₂, hx₁, hnext.sim⟩

/-! ## Termination -/

/-- The number of calls to be made on the ranks of `l`. -/
def Group.pending (l : List ι) (g : Group ι κ β τ) : Nat :=
  (l.map fun r => (g.member r).calls.length).sum

theorem Group.Step.calls_eq_nil (h : Group.Step cap g g') {q : ι}
    (hq : (g.member q).calls = []) : (g'.member q).calls = [] := by
  have hne : ∀ {r : ι} {c : Nat × Call ι κ β τ} {cs}, (g.member r).calls = c :: cs → q ≠ r := by
    rintro r c cs hr rfl
    simp [hr] at hq
  cases h with
  | submit _ hr | inline _ hr => rwa [Group.setMember_ne _ _ (hne hr)]
  | @take r k t ts _ _ =>
    by_cases hqr : q = r
    · subst hqr
      simpa [Member.taken] using hq
    · rwa [Group.setMember_ne _ _ hqr]
  | @run r who i e n c l _ _ _ =>
    by_cases hqr : q = r
    · subst hqr
      simpa using hq
    · simpa [hqr] using hq

omit [DecidableEq ι] [DecidableEq κ] in
theorem CallStep.pending_lt {l : List ι} (h : CallStep r g g')
    (hl : ∀ q, q ∉ l → (g.member q).calls = []) : g'.pending l < g.pending l := by
  have hr : r ∈ l := by
    by_contra hr
    have := h.here
    simp [hl r hr] at this
  refine List.sum_lt_sum _ _ (fun q _ => ?_) ⟨r, hr, h.here⟩
  by_cases hqr : q = r
  · subst hqr
    exact h.here.le
  · rw [h.others q hqr]

/-- If the sequential ranks terminate, so does the group. -/
theorem Simulates.terminates (l : List ι)
    (h : Simulates g x) (hl : ∀ q, q ∉ l → (g.member q).calls = [])
    (hx : Acc (fun b a => Step cap a b) x) :
    Acc (fun b a => Group.Step cap a b ∧ Waits a b) g := by
  induction hx generalizing g with
  | intro x _ ih =>
    -- Between two steps of the sequential ranks only finitely many calls are submitted.
    generalize hn : g.pending l = n
    induction n using Nat.strong_induction_on generalizing g with
    | _ n ihn =>
      refine ⟨_, fun g' ⟨hstep, hwait⟩ => ?_⟩
      have hl' : ∀ q, q ∉ l → (g'.member q).calls = [] := fun q hq => hstep.calls_eq_nil (hl q hq)
      obtain ⟨x', hnext⟩ := h.step hstep hwait
      rcases hnext.step with hx' | ⟨rfl, r, hcall⟩
      · exact ih x' hx' hnext.sim hl'
      · exact ihn _ (hn ▸ hcall.pending_lt hl) hnext.sim hl' rfl

/-! ## Progress -/

/-- Everything runs on the engines. -/
structure Group.EngineOnly (g : Group ι κ β τ) : Prop where
  caller : ∀ r, (g.member r).caller = .ret ()
  calls : ∀ r, ∀ c ∈ (g.member r).calls, ∃ t, c.2 = .submit t
  send : ∀ r q, g.locks.send r q ≠ some .caller
  recv : ∀ r q, g.locks.recv r q ≠ some .caller

omit [DecidableEq ι] [DecidableEq κ] in
theorem Group.EngineOnly.init {st : ι → Store κ β τ} {calls : ι → List (Nat × Call ι κ β τ)}
    (h : ∀ r, ∀ c ∈ calls r, ∃ t, c.2 = .submit t) : (Group.init st calls).EngineOnly :=
  ⟨fun _ => rfl, h, fun _ _ => nofun, fun _ _ => nofun⟩

omit [DecidableEq ι] [DecidableEq κ] in
/-- There is no inline call that would have to wait. -/
theorem Group.EngineOnly.waits (h : g.EngineOnly) : Waits g g' := by
  intro r k p cs hcalls _
  obtain ⟨t, ht⟩ := h.calls r (k, .inline p) (by simp [hcalls])
  cases ht

omit [DecidableEq κ] in
theorem setLock_ne_caller {l : ι → ι → Option Party} (h : ∀ r q, l r q ≠ some .caller) (r q : ι)
    (inCall : Bool) (r' q' : ι) :
    setLock l r q (if inCall then some .engine else none) r' q' ≠ some .caller := by
  unfold setLock
  by_cases hr : r' = r
  · subst hr
    by_cases hq : q' = q
    · subst hq
      cases inCall <;> simp
    · simpa [hq] using h r' q'
  · simpa [hr] using h r' q'

theorem Group.EngineOnly.step (h : g.EngineOnly) (hstep : Group.Step cap g g') : g'.EngineOnly := by
  -- A step changes one member; the others are as before.
  have hmember : ∀ {r m}, m.caller = .ret () → (∀ c ∈ m.calls, ∃ t, c.2 = Call.submit t) →
      ∀ q, (update g.member r m q).caller = .ret () ∧
        ∀ c ∈ (update g.member r m q).calls, ∃ t, c.2 = .submit t := by
    intro r m hc hs q
    by_cases hq : q = r
    · subst hq
      rw [update_self]
      exact ⟨hc, hs⟩
    · rw [update_of_ne hq]
      exact ⟨h.caller q, h.calls q⟩
  cases hstep with
  | @submit r k t cs hc hcalls =>
    have := hmember (r := r) (m := (g.member r).submitted k t cs) hc fun c hmem =>
      h.calls r c (by rw [hcalls]; exact List.mem_cons_of_mem _ hmem)
    exact ⟨fun q => (this q).1, fun q => (this q).2, h.send, h.recv⟩
  | @inline r k p cs hc hcalls =>
    obtain ⟨t, ht⟩ := h.calls r (k, .inline p) (by simp [hcalls])
    cases ht
  | @take r k t ts he hqueue =>
    have := hmember (r := r) (m := (g.member r).taken k t ts) (h.caller r) (h.calls r)
    exact ⟨fun q => (this q).1, fun q => (this q).2, h.send, h.recv⟩
  | @run r who i e n c l hn hc hl =>
    cases who with
    | caller =>
      simp only [Member.node, h.caller r] at hn
      cases hn
    | engine =>
      have := hmember (r := r) (m := (g.member r).setNode n .engine) (h.caller r)
        (by simpa using h.calls r)
      cases hl with
      | tau _ => exact ⟨fun q => (this q).1, fun q => (this q).2, h.send, h.recv⟩
      | out _ =>
        exact ⟨fun q => (this q).1, fun q => (this q).2, setLock_ne_caller h.send r _ _, h.recv⟩
      | inp _ =>
        exact ⟨fun q => (this q).1, fun q => (this q).2, h.send, setLock_ne_caller h.recv r _ _⟩

theorem Group.EngineOnly.reaches (h : g.EngineOnly)
    (hreach : Group.Reaches cap g g') : g'.EngineOnly ∧ Group.ReachesWaiting cap g g' := by
  induction hreach with
  | refl => exact ⟨h, .refl⟩
  | tail _ hstep ih => exact ⟨ih.1.step hstep, ih.2.tail ⟨hstep, ih.1.waits⟩⟩

omit [DecidableEq κ] in
theorem Group.EngineOnly.lockStep (h : g.EngineOnly) (r : ι) (inCall : Bool)
    (e : Event ι β) : ∃ l, LockStep r .engine inCall e g.locks l := by
  have hfree : ∀ {o : Option Party}, o ≠ some .caller → o = none ∨ o = some .engine := by
    rintro (_ | _ | _) ho
    · exact .inl rfl
    · exact .inr rfl
    · exact absurd rfl ho
  cases e with
  | tau => exact ⟨_, .tau _⟩
  | out q x => exact ⟨_, .out (hfree (h.send r q))⟩
  | inp q x => exact ⟨_, .inp (hfree (h.recv r q))⟩

omit [DecidableEq ι] in
theorem NodeStep.of_bind {s : Store κ β τ} {p : Proc ι κ β τ Unit} {k : Unit → Proc ι κ β τ Unit}
    {i : Option Nat} {e : Event ι β} (h : NodeStep ⟨s, p >>= k⟩ i e n)
    (hp : p ≠ .ret ()) : ∃ n', NodeStep ⟨s, p⟩ i e n' := by
  cases p with
  | ret a => exact absurd rfl hp
  | raise msg => cases h
  | act f k' => cases h; exact ⟨_, .act⟩
  | par ts k' =>
    cases h with
    | thread hi ht => exact ⟨_, .thread hi ht⟩
    | join hts => exact ⟨_, .join hts⟩

omit [DecidableEq ι] [DecidableEq κ] in
/-- Where the sequential rank of a member is whose calling thread does nothing. -/
theorem Follows.of_caller (h : Follows m n)
    (hc : m.caller = .ret ()) : ∃ t, (m.engine = .ret () ∨ t = m.engine_tag) ∧
      n = ⟨⟨m.mem, m.aux, t⟩, m.engine >>= fun _ => inOrder m.todo⟩ := by
  cases h with
  | engine t _ ht hn => exact ⟨t, ht, hn⟩
  | caller t hi _ hn => exact ⟨t, .inl hi.1, by rw [hn, hc, hi.1]⟩

/-- If the sequential ranks are not stuck, neither is the group. -/
theorem Group.EngineOnly.progress (h : g.EngineOnly) (hsim : Simulates g x)
    (hx : (∀ r, (x.node r).prog = .ret ()) ∨ ∃ y, ForkJoin.Step cap x y) :
    g.Finished ∨ ∃ g', Group.Step cap g g' := by
  by_cases hidle : ∃ r, (g.member r).engine = .ret () ∧ (g.member r).todo ≠ []
  · -- The engine can take a task, or the calling thread can submit one.
    right
    obtain ⟨r, he, htodo⟩ := hidle
    rcases hq : (g.member r).queue with _ | ⟨⟨k, t⟩, ts⟩
    · rcases hcalls : (g.member r).calls with _ | ⟨⟨k, c⟩, cs⟩
      · exact absurd (by simp [Member.todo, hq, hcalls]) htodo
      · obtain ⟨t, rfl⟩ : ∃ t, c = .submit t := h.calls r (k, c) (by simp [hcalls])
        exact ⟨_, .submit (h.caller r) hcalls⟩
    · exact ⟨_, .take he hq⟩
  · push Not at hidle
    rcases hx with hx | ⟨y, hy⟩
    · left
      intro r
      obtain ⟨t, -, hn⟩ := (hsim.follows r).of_caller (h.caller r)
      have hret := hx r
      rw [hn] at hret
      have he : (g.member r).engine = .ret () := by
        revert hret
        cases (g.member r).engine <;> simp
      have htodo := hidle r he
      simp only [Member.todo, List.append_eq_nil_iff, List.map_eq_nil_iff] at htodo
      exact ⟨he, htodo.1, h.caller r, htodo.2⟩
    · right
      cases hy with
      | @mk r i e n c hn hc =>
        obtain ⟨t, ht, hnode⟩ := (hsim.follows r).of_caller (h.caller r)
        rw [hnode] at hn
        by_cases he : (g.member r).engine = .ret ()
        · simp only [he, hidle r he, Proc.ret_bind, inOrder] at hn
          cases hn
        · obtain rfl := ht.resolve_left he
          obtain ⟨n', hn'⟩ := hn.of_bind he
          obtain ⟨l, hl⟩ := h.lockStep r (n'.inCall i) e
          rw [hsim.chan] at hc
          exact ⟨_, @Group.Step.run _ _ _ _ _ _ _ _ _ .engine _ _ _ _ _ hn' hc hl⟩

end semantics

end ForkJoin
