import Mccl.Framework.Lockstep
import Mccl.Framework.System

/-! # Calls that Fail

    Fork-join programs that say which thread makes a call, and in which any
    call may fail. A failed call raises in the thread that made it.

    * **Programs** (`Crew`): as `Proc`, but a block has helper threads and
      possibly a task of the calling thread, which it does between starting
      and joining the helpers.
    * **Semantics** (`Crew.Step`): an exception that leaves a helper thread, or
      that leaves the block while a helper is not joined, terminates the
      process. An exception of the calling thread alone is raised.
    * `Crew.acc`: every run is finite, whichever calls fail.
    * **Main result** (`Crew.inv_of_reach`): if no call fails while there are
      helpers, the process is not terminated, and what the program makes of a
      failed call holds in the end (`Crew.Inv.settled`). -/

namespace ForkJoin

variable {ι κ β τ α γ : Type}

/-- What a thread has to do: its calls, or the exception that is raised when
    their arguments are computed. -/
abbrev Task (ι κ : Type) := Except String (Thread ι κ)

inductive Crew (ι κ β τ α : Type) where
  | ret (a : α)
  | raise (msg : String)
  | act (f : Store κ β τ → Store κ β τ) (k : Store κ β τ → Crew ι κ β τ α)
  /-- Start the helpers, do the own task, join the helpers, continue. -/
  | par (helpers : List (Task ι κ)) (own : Option (Task ι κ))
      (k : Except String Unit → Crew ι κ β τ α)

namespace Crew

/-! ## Programs -/

def bind : Crew ι κ β τ α → (α → Crew ι κ β τ γ) → Crew ι κ β τ γ
  | ret a, g => g a
  | raise msg, _ => raise msg
  | act f k, g => act f fun s => (k s).bind g
  | par hs own k, g => par hs own fun r => (k r).bind g

instance : Monad (Crew ι κ β τ) where
  pure := ret
  bind := bind

def tryCatch : Crew ι κ β τ α → (String → Crew ι κ β τ α) → Crew ι κ β τ α
  | ret a, _ => ret a
  | raise msg, h => h msg
  | act f k, h => act f fun s => (k s).tryCatch h
  | par hs own k, h => par hs own fun r => (k r).tryCatch h

/-- What the calling thread does when its own task is over. -/
def resume : Except String Unit → Crew ι κ β τ Unit
  | .ok _ => ret ()
  | .error msg => raise msg

/-- One block. -/
def fork (helpers : List (Task ι κ)) (own : Option (Task ι κ)) : Crew ι κ β τ Unit :=
  par helpers own resume

/-- `p` with its threads assigned: all of them are helpers, or, if `own` is
    set, the calling thread does what the last one of each block has to do. -/
def ofProc (own : Bool) : Proc ι κ β τ α → Crew ι κ β τ α
  | .ret a => ret a
  | .raise msg => raise msg
  | .act f k => act f fun s => ofProc own (k s)
  | .par ts k =>
    bind (if own then fork (ts.dropLast.map .ok) (ts.getLast?.map .ok) else fork (ts.map .ok) none)
      fun _ => ofProc own k

/-! ## Semantics -/

/-- A rank that runs a program. -/
structure State (ι κ β τ : Type) where
  store : Store κ β τ
  prog : Crew ι κ β τ Unit
  /-- A call has failed. -/
  failed : Bool
  /-- `std::terminate` has been called. -/
  terminated : Bool

/-- What happens in a step. `helpers` tells whether there are threads that
    the calling thread has not joined. -/
inductive Act where
  | compute
  | returns
  | fails (helpers : Bool)
  | raises (helpers : Bool)
  | join
  deriving DecidableEq

/-- What a call may have done to the store when it is over. -/
def Leaves (c : Op ι κ) (s s' : Store κ β τ) : Prop :=
  ∃ m, s' = { s with mem := m } ∧ ∀ a ∉ Thread.writes [c], m a = s.mem a

/-- `failure c` is what a failed call `c` raises. -/
inductive Step (failure : Op ι κ → String) : State ι κ β τ → Act → State ι κ β τ → Prop where
  | act {s : Store κ β τ} {f k b} : Step failure ⟨s, .act f k, b, false⟩ .compute ⟨f s, k s, b, false⟩
  | helper_returns {s s' : Store κ β τ} {hs : List (Task ι κ)} {own k b c t} {i : Nat}
      (hi : hs[i]? = some (.ok (c :: t))) (hc : Leaves c s s') :
      Step failure ⟨s, .par hs own k, b, false⟩ .returns ⟨s', .par (hs.set i (.ok t)) own k, b, false⟩
  | helper_fails {s s' : Store κ β τ} {hs : List (Task ι κ)} {own k b c t} {i : Nat}
      (hi : hs[i]? = some (.ok (c :: t))) (hc : Leaves c s s') :
      Step failure ⟨s, .par hs own k, b, false⟩ (.fails true) ⟨s', .par hs own k, true, true⟩
  | helper_raises {s : Store κ β τ} {hs : List (Task ι κ)} {own k b msg} {i : Nat}
      (hi : hs[i]? = some (.error msg)) :
      Step failure ⟨s, .par hs own k, b, false⟩ (.raises true) ⟨s, .par hs own k, b, true⟩
  | own_returns {s s' : Store κ β τ} {hs : List (Task ι κ)} {c t k b} (hc : Leaves c s s') :
      Step failure ⟨s, .par hs (some (.ok (c :: t))) k, b, false⟩ .returns
        ⟨s', .par hs (some (.ok t)) k, b, false⟩
  -- There is nothing to join: the exception goes on.
  | own_fails {s s' : Store κ β τ} {c t k b} (hc : Leaves c s s') :
      Step failure ⟨s, .par [] (some (.ok (c :: t))) k, b, false⟩ (.fails false)
        ⟨s', k (.error (failure c)), true, false⟩
  -- The exception destroys threads that are joinable, even if they are done.
  | own_fails_joinable {s s' : Store κ β τ} {hs : List (Task ι κ)} {c t k b}
      (hhs : hs ≠ []) (hc : Leaves c s s') :
      Step failure ⟨s, .par hs (some (.ok (c :: t))) k, b, false⟩ (.fails true)
        ⟨s', .par hs (some (.ok (c :: t))) k, true, true⟩
  | own_raises {s : Store κ β τ} {msg k b} :
      Step failure ⟨s, .par [] (some (.error msg)) k, b, false⟩ (.raises false)
        ⟨s, k (.error msg), b, false⟩
  | own_raises_joinable {s : Store κ β τ} {hs : List (Task ι κ)} {msg k b}
      (hhs : hs ≠ []) :
      Step failure ⟨s, .par hs (some (.error msg)) k, b, false⟩ (.raises true)
        ⟨s, .par hs (some (.error msg)) k, b, true⟩
  | join {s : Store κ β τ} {hs : List (Task ι κ)} {own : Option (Task ι κ)} {k b}
      (hhs : ∀ t ∈ hs, t = .ok []) (hown : ∀ t ∈ own, t = .ok []) :
      Step failure ⟨s, .par hs own k, b, false⟩ .join ⟨s, k (.ok ()), b, false⟩

/-- The runs of one program from one store. -/
def system (failure : Op ι κ → String) (p : Crew ι κ β τ Unit) (st : Store κ β τ) :
    System (State ι κ β τ) Act where
  init s := s = ⟨st, p, false, false⟩
  step := Step failure

/-- Nothing fails or raises while there are helpers. -/
def Harmless (_ : State ι κ β τ) (a : Act) : Prop := a ≠ .fails true ∧ a ≠ .raises true

/-- The run has come to an end. -/
def Over (failure : Op ι κ → String) (s : State ι κ β τ) : Prop := ∀ a s', ¬ Step failure s a s'

section runs
variable {failure : Op ι κ → String} {s s' : State ι κ β τ} {a : Act}

theorem Step.terminated_iff (h : Step failure s a s') :
    s'.terminated = true ↔ ¬ Harmless s a := by
  cases h <;> simp [Harmless]

/-! ## Every run is finite -/

/-- The number of calls of a task. -/
def calls : Task ι κ → Nat
  | .ok t => t.length
  | .error _ => 0

theorem calls_lt (c : Op ι κ) (t : Thread ι κ) : calls (.ok t) < calls (.ok (c :: t)) := by
  simp [calls]

theorem acc_terminated {x : State ι κ β τ} (h : x.terminated = true) :
    Acc (fun y x => ∃ a, Step failure x a y) x :=
  ⟨_, fun y ⟨a, hs⟩ => by cases hs <;> exact absurd h (by simp)⟩

/-- Whichever calls fail, the run ends. -/
theorem acc (failure : Op ι κ → String) (p : Crew ι κ β τ Unit) (st : Store κ β τ) (b b' : Bool) :
    Acc (fun y x => ∃ a, Step failure x a y) ⟨st, p, b, b'⟩ := by
  cases b' with
  | true => exact acc_terminated rfl
  | false => ?_
  induction p generalizing st b with
  | ret a | raise msg => exact ⟨_, fun y ⟨a, hs⟩ => nomatch hs⟩
  | act f k ih =>
    refine ⟨_, fun y ⟨a, hs⟩ => ?_⟩
    cases hs
    exact ih _ _ _
  | par hs own k ih =>
    -- Within a block the number of outstanding calls goes down.
    generalize hn : (hs.map calls).sum + (own.map calls).getD 0 = n
    induction n using Nat.strong_induction_on generalizing hs own st b with
    | _ n ihn =>
      subst hn
      refine ⟨_, fun y ⟨a, hstep⟩ => ?_⟩
      cases hstep with
      | helper_returns hi hc =>
        have hlt := sum_map_set_lt hi (calls_lt _ _)
        exact ihn _ (by omega) _ _ _ _ rfl
      | own_returns hc => exact ihn _ (by simp [calls]) _ _ _ _ rfl
      | own_fails hc | own_raises | join hhs hown => exact ih _ _ _
      | helper_fails | helper_raises | own_fails_joinable | own_raises_joinable =>
        exact acc_terminated rfl

/-- A program that is not over can go on. -/
theorem ended_of_over {st : Store κ β τ} {p : Crew ι κ β τ Unit} {b : Bool}
    (h : Over failure ⟨st, p, b, false⟩) : p = .ret () ∨ ∃ msg, p = .raise msg := by
  cases p with
  | ret a => exact .inl rfl
  | raise msg => exact .inr ⟨msg, rfl⟩
  | act f k => exact absurd .act (h _ _)
  | par hs own k =>
    have hkeep (c : Op ι κ) : Leaves c st st := ⟨st.mem, rfl, fun _ _ => rfl⟩
    have hhs : ∀ t ∈ hs, t = .ok [] := by
      intro t ht
      obtain ⟨i, hi⟩ := List.mem_iff_getElem?.mp ht
      match t, hi with
      | .error msg, hi => exact absurd (.helper_raises hi) (h _ _)
      | .ok [], _ => rfl
      | .ok (c :: t), hi => exact absurd (.helper_returns hi (hkeep c)) (h _ _)
    have hown : ∀ t ∈ own, t = .ok [] := by
      rintro t rfl
      match t with
      | .ok [] => rfl
      | .ok (c :: t) => exact absurd (.own_returns (hkeep c)) (h _ _)
      | .error msg =>
        by_cases hne : hs = []
        · subst hne
          exact absurd .own_raises (h _ _)
        · exact absurd (.own_raises_joinable hne) (h _ _)
    exact absurd (.join hhs hown) (h _ _)

end runs

/-! ## What becomes of a failed call -/

/-- The program makes no call, and ends with `Q`, or raises with `E`. -/
def Settles (Q : α → Store κ β τ → Prop) (E : String → Store κ β τ → Prop) :
    Crew ι κ β τ α → Store κ β τ → Prop
  | ret a, s => Q a s
  | raise msg, s => E msg s
  | act f k, s => (k s).Settles Q E (f s)
  | par _ _ _, _ => False

/-- Wherever a call of the calling thread fails, the rest of the program
    settles with `Q` or `E`. -/
def Surfaces (failure : Op ι κ → String) (Q : α → Store κ β τ → Prop)
    (E : String → Store κ β τ → Prop) : Crew ι κ β τ α → Prop
  | ret _ => True
  | raise _ => True
  | act _ k => ∀ s, (k s).Surfaces failure Q E
  | par _ _ k => (∀ c s, (k (.error (failure c))).Settles Q E s) ∧
      ∀ r, (k r).Surfaces failure Q E

/-- The program raises what a failed call raises. -/
abbrev Propagates (failure : Op ι κ → String) (p : Crew ι κ β τ α) : Prop :=
  p.Surfaces failure (fun _ _ => False) fun msg _ => ∃ c, msg = failure c

section rules
variable {failure : Op ι κ → String} {Q : α → Store κ β τ → Prop} {E : String → Store κ β τ → Prop}
  {p : Crew ι κ β τ α}

theorem Settles.bind {g : α → Crew ι κ β τ γ} {s : Store κ β τ}
    (h : p.Settles (fun _ _ => False) E s) : (p.bind g).Settles (fun _ _ => False) E s := by
  induction p generalizing s with
  | ret a => exact h.elim
  | raise msg => exact h
  | act f k ih => exact ih s h
  | par hs own k ih => exact h

theorem Propagates.bind {g : α → Crew ι κ β τ γ} (hp : p.Propagates failure)
    (hg : ∀ a, (g a).Propagates failure) : (p >>= g).Propagates failure := by
  change (p.bind g).Propagates failure
  induction p with
  | ret a => exact hg a
  | raise msg => trivial
  | act f k ih => exact fun s => ih s (hp s)
  | par hs own k ih => exact ⟨fun c s => (hp.1 c s).bind, fun r => ih r (hp.2 r)⟩

theorem Settles.tryCatch {E' : String → Store κ β τ → Prop}
    {h : String → Crew ι κ β τ α} {s : Store κ β τ} (hp : p.Settles (fun _ _ => False) E s)
    (hh : ∀ msg s, E msg s → (h msg).Settles Q E' s) : (p.tryCatch h).Settles Q E' s := by
  induction p generalizing s with
  | ret a => exact hp.elim
  | raise msg => exact hh msg s hp
  | act f k ih => exact ih s hp
  | par hs own k ih => exact hp.elim

theorem Propagates.tryCatch {h : String → Crew ι κ β τ α}
    (hp : p.Propagates failure) (hh : ∀ msg, (h msg).Surfaces failure Q E)
    (hfail : ∀ c s, (h (failure c)).Settles Q E s) : (p.tryCatch h).Surfaces failure Q E := by
  induction p with
  | ret a => trivial
  | raise msg => exact hh msg
  | act f k ih => exact fun s => ih s (hp s)
  | par hs own k ih =>
    refine ⟨fun c s => (hp.1 c s).tryCatch ?_, fun r => ih r (hp.2 r)⟩
    rintro _ s ⟨c', rfl⟩
    exact hfail c' s

theorem Propagates.forM {l : List α} {g : α → Crew ι κ β τ PUnit}
    (hg : ∀ a ∈ l, (g a).Propagates failure) : (ForM.forM l g).Propagates failure := by
  induction l with
  | nil => trivial
  | cons a l ih =>
    rw [List.forM_cons]
    exact .bind (hg a (by simp)) fun _ => ih fun a' ha' => hg a' (by simp [ha'])

theorem Propagates.fork (hs : List (Task ι κ)) (own : Option (Task ι κ)) :
    (fork hs own : Crew ι κ β τ Unit).Propagates failure := by
  refine ⟨fun c s => ⟨c, rfl⟩, fun r => ?_⟩
  cases r <;> trivial

theorem Propagates.ofProc (own : Bool) (p : Proc ι κ β τ α) :
    (ofProc own p).Propagates failure := by
  induction p with
  | ret a => trivial
  | raise msg => trivial
  | act f k ih => exact fun s => ih s
  | par ts k ih =>
    rw [Crew.ofProc]
    refine Propagates.bind ?_ fun _ => ih
    split <;> exact .fork _ _

theorem Surfaces.of_straight {p : Proc ι κ β τ α} (hp : p.Straight) (own : Bool) :
    (Crew.ofProc own p).Surfaces failure Q E := by
  induction p with
  | ret a => trivial
  | raise msg => trivial
  | act f k ih => exact fun s => ih s (hp s)
  | par ts k ih => exact hp.elim

end rules

/-- **What holds along a run**: as long as nothing fails next to helpers, the
    process is not terminated, and once a call has failed the rest settles. -/
structure Inv (failure : Op ι κ → String) (Q : Unit → Store κ β τ → Prop)
    (E : String → Store κ β τ → Prop) (s : State ι κ β τ) : Prop where
  running : s.terminated = false
  surfaces : s.prog.Surfaces failure Q E
  settles : s.failed = true → s.prog.Settles Q E s.store

section results
variable {failure : Op ι κ → String} {Q : Unit → Store κ β τ → Prop}
  {E : String → Store κ β τ → Prop} {s s' : State ι κ β τ}

theorem Inv.step {a : Act} (h : Inv failure Q E s) (hok : Harmless s a)
    (hs : Step failure s a s') : Inv failure Q E s' := by
  have hrun : s'.terminated = false := by
    have := hs.terminated_iff
    grind
  obtain ⟨-, hsur, hset⟩ := h
  cases hs with
  | act => exact ⟨hrun, hsur _, hset⟩
  | helper_returns | own_returns => exact ⟨hrun, hsur, fun hb => (hset hb).elim⟩
  | own_fails => exact ⟨hrun, hsur.2 _, fun _ => hsur.1 _ _⟩
  | own_raises | join => exact ⟨hrun, hsur.2 _, fun hb => (hset hb).elim⟩
  | helper_fails | helper_raises | own_fails_joinable | own_raises_joinable => cases hrun

theorem inv_of_reach {p : Crew ι κ β τ Unit} {st : Store κ β τ} (hp : p.Surfaces failure Q E)
    (h : (system failure p st).Reach Harmless s) : Inv failure Q E s := by
  refine h.invariant (fun s hs => ?_) fun s a s' hinv hok hs => hinv.step hok hs
  obtain rfl : s = ⟨st, p, false, false⟩ := hs
  exact ⟨rfl, hp, fun hb => absurd hb (by simp)⟩

/-- A failed call has become what the program makes of it. -/
theorem Inv.settled (h : Inv failure Q E s) (hover : Over failure s) (hfail : s.failed = true) :
    s.prog = .ret () ∧ Q () s.store ∨ ∃ msg, s.prog = .raise msg ∧ E msg s.store := by
  obtain ⟨store, prog, failed, terminated⟩ := s
  obtain ⟨rfl, -, hset⟩ := h
  obtain rfl | ⟨msg, rfl⟩ := ended_of_over hover
  · exact .inl ⟨rfl, hset hfail⟩
  · exact .inr ⟨msg, rfl, hset hfail⟩

end results

/-! ## Programs without helpers -/

section alone
variable {failure : Op ι κ → String} {s : State ι κ β τ}

variable {l : List α} {p : Proc ι κ β τ α}

/-- Programs whose blocks have one thread, which the calling thread is. -/
def Solo : Proc ι κ β τ α → Prop
  | .ret _ => True
  | .raise _ => True
  | .act _ k => ∀ s, Solo (k s)
  | .par ts k => ts.length ≤ 1 ∧ Solo k

theorem Solo.bind {g : α → Proc ι κ β τ γ} (hp : Solo p)
    (hg : ∀ a, Solo (g a)) : Solo (p >>= g) := by
  induction p with
  | ret a => exact hg a
  | raise msg => trivial
  | act f k ih => exact fun s => ih s (hp s)
  | par ts k ih => exact ⟨hp.1, ih hp.2⟩

theorem Solo.forM {g : α → Proc ι κ β τ PUnit} (hg : ∀ a ∈ l, Solo (g a)) :
    Solo (ForM.forM l g) := by
  induction l with
  | nil => trivial
  | cons a l ih =>
    rw [List.forM_cons]
    exact .bind (hg a (by simp)) fun _ => ih fun a' ha' => hg a' (by simp [ha'])

theorem Solo.fork (t : Thread ι κ) : Solo (.fork [t] : Proc ι κ β τ Unit) := ⟨by simp, trivial⟩

theorem Solo.of_straight (h : p.Straight) : Solo p := by
  induction p with
  | ret a => trivial
  | raise msg => trivial
  | act f k ih => exact fun s => ih s (h s)
  | par ts k ih => exact h.elim

end alone

end Crew

end ForkJoin
