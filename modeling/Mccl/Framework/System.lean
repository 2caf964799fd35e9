import Mathlib.Algebra.GroupWithZero.Nat
import Mathlib.Logic.Relation

/-! # Transition Systems with Labelled Steps

    A system has initial states and steps, each of which carries a label that
    says which part of the system moved. Conditions on the steps restrict the
    runs that are considered (`Reach`).

    * `Reach.invariant`: what holds initially and is kept by every admitted
      step holds in every state of every admitted run.
    * `Steps`: a run as a list of labels. `Leads`: some run leads to a state that
      satisfies a predicate.
    * `Ends`: every run ends, in a state that satisfies a predicate. -/

structure System (σ α : Type) where
  init : σ → Prop
  step : σ → α → σ → Prop

namespace System

variable {σ α : Type} {M : System σ α} {ok ok' : σ → α → Prop} {I : σ → Prop} {s s' : σ}

/-- The states of the runs all of whose steps are admitted by `ok`. -/
inductive Reach (M : System σ α) (ok : σ → α → Prop) : σ → Prop where
  | init {s : σ} (h : M.init s) : Reach M ok s
  | step {s s' : σ} {a : α} (h : Reach M ok s) (hok : ok s a) (hs : M.step s a s') : Reach M ok s'

/-- The states of all runs. -/
abbrev Reachable (M : System σ α) : σ → Prop := Reach M fun _ _ => True

/-- A run goes on. The step comes first: what admits it depends on its label. -/
theorem Reach.next {a : α} (h : M.Reach ok s) (hs : M.step s a s') (hok : ok s a := by exact trivial) :
    M.Reach ok s' := .step h hok hs

theorem Reach.mono (hle : ∀ s a, ok s a → ok' s a) (h : M.Reach ok s) : M.Reach ok' s := by
  induction h with
  | init h => exact .init h
  | step _ hok hs ih => exact .step ih (hle _ _ hok) hs

theorem Reach.reachable (h : M.Reach ok s) : M.Reachable s := h.mono fun _ _ _ => trivial

/-- **Invariants** hold along every admitted run. -/
theorem Reach.invariant (hinit : ∀ s, M.init s → I s)
    (hstep : ∀ s a s', I s → ok s a → M.step s a s' → I s') (h : M.Reach ok s) : I s := by
  induction h with
  | init h => exact hinit _ h
  | step _ hok hs ih => exact hstep _ _ _ ih hok hs

/-- A run from `s` to `s'` with the given labels. -/
inductive Steps (M : System σ α) : σ → List α → σ → Prop where
  | nil (s : σ) : Steps M s [] s
  | cons {s s' s'' : σ} {a : α} {l : List α} (h : M.step s a s') (hs : Steps M s' l s'') :
      Steps M s (a :: l) s''

theorem Steps.append {s'' : σ} {l l' : List α} (h : M.Steps s l s') (h' : M.Steps s' l' s'') :
    M.Steps s (l ++ l') s'' := by
  induction h with
  | nil s => exact h'
  | cons hstep _ ih => exact .cons hstep (ih h')

/-- Some run from `s` leads to a state that satisfies `P`. -/
def Leads (M : System σ α) (P : σ → Prop) (s : σ) : Prop := ∃ l s', M.Steps s l s' ∧ P s'

theorem Leads.here {P : σ → Prop} (h : P s) : M.Leads P s := ⟨[], s, .nil s, h⟩

theorem Leads.step {P : σ → Prop} {a : α} (hs : M.step s a s') (h : M.Leads P s') : M.Leads P s := by
  obtain ⟨l, s'', hrun, hP⟩ := h
  exact ⟨a :: l, s'', .cons hs hrun, hP⟩

theorem Leads.trans {P Q : σ → Prop} (h : M.Leads P s) (hQ : ∀ s', P s' → M.Leads Q s') : M.Leads Q s := by
  obtain ⟨l, s', hrun, hP⟩ := h
  obtain ⟨l', s'', hrun', hend⟩ := hQ s' hP
  exact ⟨l ++ l', s'', hrun.append hrun', hend⟩

theorem Reachable.steps {l : List α} (h : M.Reachable s) (hs : M.Steps s l s') : M.Reachable s' := by
  induction hs with
  | nil s => exact h
  | cons hstep _ ih => exact ih (.step h trivial hstep)

/-- Every run from `s` ends, and `P` holds where it does. -/
inductive Ends (M : System σ α) (P : σ → Prop) : σ → Prop where
  | intro {s : σ} (hend : (∀ a s', ¬M.step s a s') → P s)
      (hstep : ∀ a s', M.step s a s' → Ends M P s') : Ends M P s

variable {P : σ → Prop}

/-- **Termination**: a number that every step makes smaller bounds the runs. -/
theorem Ends.of_measure (μ : σ → Nat) (hkeep : ∀ s a s', I s → M.step s a s' → I s')
    (hlt : ∀ s a s', I s → M.step s a s' → μ s' < μ s)
    (hend : ∀ s, I s → (∀ a s', ¬M.step s a s') → P s) (hI : I s) : M.Ends P s := by
  induction hn : μ s using Nat.strongRecOn generalizing s with
  | ind n ih =>
    apply Ends.intro (hend s hI)
    intro a s' hs
    have hμ : μ s' < n := hn ▸ hlt s a s' hI hs
    exact ih _ hμ (hkeep s a s' hI hs) rfl

theorem Ends.step {a : α} (h : M.Ends P s) (hs : M.step s a s') : M.Ends P s' := by
  cases h with
  | intro _ hstep => exact hstep a s' hs

theorem Ends.of_no_step (h : M.Ends P s) (hstuck : ∀ a s', ¬M.step s a s') : P s := by
  cases h with
  | intro hend _ => exact hend hstuck

theorem Ends.mono {Q : σ → Prop} (hPQ : ∀ s, P s → Q s) (h : M.Ends P s) : M.Ends Q s := by
  induction h with
  | intro hend _ ih => exact .intro (fun hs => hPQ _ (hend hs)) ih

theorem Ends.and {Q : σ → Prop} (hP : M.Ends P s) (hQ : M.Ends Q s) : M.Ends (fun s => P s ∧ Q s) s := by
  induction hP with
  | intro hend _ ih =>
    cases hQ with
    | intro hend' hstep' =>
      exact .intro (fun hs => ⟨hend hs, hend' hs⟩) fun a s' hs => ih a s' hs (hstep' a s' hs)

/-- A run that is continued as long as possible gets to the end. -/
theorem Ends.exists_steps (h : M.Ends P s) :
    ∃ l s', M.Steps s l s' ∧ (∀ a s'', ¬M.step s' a s'') ∧ P s' := by
  induction h with
  | @intro s hend _ ih =>
    by_cases hs : ∃ a s', M.step s a s'
    · obtain ⟨a, s', hs'⟩ := hs
      obtain ⟨l, s'', hrun, hP⟩ := ih a s' hs'
      exact ⟨a :: l, s'', .cons hs' hrun, hP⟩
    · have hstuck : ∀ a s', ¬M.step s a s' := fun a s' h => hs ⟨a, s', h⟩
      exact ⟨[], s, .nil s, hstuck, hend hstuck⟩

end System

/-- The measure of a list of parts goes down with the measure of one part. -/
theorem sum_map_set_lt {π : Type*} {f : π → Nat} {l : List π} {i : Nat} {a b : π}
    (hi : l[i]? = some a) (h : f b < f a) : ((l.set i b).map f).sum < (l.map f).sum := by
  induction l generalizing i with
  | nil => simp at hi
  | cons x l ih =>
    cases i with
    | zero =>
      obtain rfl : x = a := by simpa using hi
      simpa using h
    | succ i => simpa using ih (by simpa using hi)
