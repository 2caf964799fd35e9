import Mathlib.Algebra.Order.BigOperators.Group.Finset
import Mccl.Framework.System

/-! # Programs Side by Side

    Parties run straight-line programs over one shared state, and every statement
    is one step.

    * `ends_of_invariant`: every interleaving ends, with what an invariant says
      when no statement is left.
    * `ends_of_stable`: the case that the statements keep what is to hold.
    * `serial_of_ends`: what holds at the end of every interleaving holds if the
      parties run one after the other, in any order. -/

namespace Programs

open Function

variable {ι τ σ : Type}

structure State (ι τ σ : Type) where
  shared : σ
  todo : ι → List τ

/-! ## One after the Other -/

/-- The statements of one party, with nothing in between. -/
def alone (exec : ι → τ → σ → σ) (i : ι) (ts : List τ) (m : σ) : σ := ts.foldl (fun m t => exec i t m) m

/-- The parties in the given order, each to its end. -/
def serial (exec : ι → τ → σ → σ) (prog : ι → List τ) (order : List ι) (m : σ) : σ :=
  order.foldl (fun m i => alone exec i (prog i) m) m

theorem serial_congr {exec : ι → τ → σ → σ} {prog prog' : ι → List τ} {order : List ι}
    (h : ∀ i ∈ order, prog i = prog' i) (m : σ) :
    serial exec prog order m = serial exec prog' order m := by
  induction order generalizing m with
  | nil => rfl
  | cons i rest ih =>
    show serial exec prog rest (alone exec i (prog i) m) = serial exec prog' rest (alone exec i (prog' i) m)
    rw [h i List.mem_cons_self]
    exact ih (fun j hj => h j (List.mem_cons_of_mem _ hj)) _

/-! ## Interleavings -/

variable [DecidableEq ι] (exec : ι → τ → σ → σ)

/-- Any party with a statement left may execute it. -/
inductive Step : State ι τ σ → ι → State ι τ σ → Prop where
  | exec {s : State ι τ σ} {i : ι} {t : τ} {rest : List τ} (h : s.todo i = t :: rest) :
      Step s i ⟨exec i t s.shared, Function.update s.todo i rest⟩

def system (prog : ι → List τ) (m : σ) : System (State ι τ σ) ι := ⟨fun s => s = ⟨m, prog⟩, Step exec⟩

variable {exec} {prog : ι → List τ} {m : σ} {s : State ι τ σ}

theorem todo_eq_nil (h : ∀ i s', ¬(system exec prog m).step s i s') (i : ι) : s.todo i = [] := by
  cases htodo : s.todo i with
  | nil => rfl
  | cons t rest => exact absurd (Step.exec htodo) (h i _)

section Ends

variable [Fintype ι] {I : State ι τ σ → Prop} {P : σ → Prop}

theorem remaining_lt {s' : State ι τ σ} {i : ι} (hs : Step exec s i s') :
    ∑ j, (s'.todo j).length < ∑ j, (s.todo j).length := by
  cases hs with
  | exec htodo =>
    apply Finset.sum_lt_sum
    · intro j _
      by_cases hj : j = i
      · subst hj
        simp [htodo]
      · simp [hj]
    · exact ⟨i, Finset.mem_univ i, by simp [htodo]⟩

/-- **Interleavings**: every one ends, and an invariant says how. -/
theorem ends_of_invariant (hkeep : ∀ s i s', I s → Step exec s i s' → I s')
    (hend : ∀ s, I s → (∀ i, s.todo i = []) → P s.shared) (hinit : I ⟨m, prog⟩) :
    (system exec prog m).Ends (fun s => P s.shared) ⟨m, prog⟩ := by
  apply System.Ends.of_measure (I := I) fun s => ∑ j, (s.todo j).length
  · exact hkeep
  · intro s i s' _ hs
    exact remaining_lt hs
  · intro s hI hstuck
    exact hend s hI (todo_eq_nil hstuck)
  · exact hinit

/-- What every statement of the programs keeps holds at the end. -/
theorem ends_of_stable (hkeep : ∀ i, ∀ t ∈ prog i, ∀ m, P m → P (exec i t m)) (hinit : P m) :
    (system exec prog m).Ends (fun s => P s.shared) ⟨m, prog⟩ := by
  apply ends_of_invariant (I := fun s => P s.shared ∧ ∀ i, s.todo i ⊆ prog i)
  · intro s i s' hI hs
    cases hs with
    | exec htodo =>
      rename_i rest
      have hsub := hI.2 i
      rw [htodo] at hsub
      refine ⟨hkeep i _ (hsub List.mem_cons_self) _ hI.1, ?_⟩
      intro j
      show update s.todo i rest j ⊆ prog j
      by_cases hj : j = i
      · subst hj
        rw [update_self]
        exact fun t ht => hsub (List.mem_cons_of_mem _ ht)
      · rw [update_of_ne hj]
        exact hI.2 j
  · intro s hI _
    exact hI.1
  · exact ⟨hinit, fun i => List.Subset.refl _⟩

end Ends

/-! ## Serial Runs -/

theorem ends_alone {P : State ι τ σ → Prop} (h : (system exec prog m).Ends P s) (i : ι) :
    (system exec prog m).Ends P ⟨alone exec i (s.todo i) s.shared, update s.todo i []⟩ := by
  induction htodo : s.todo i generalizing s with
  | nil =>
    rw [← htodo, update_eq_self, htodo]
    exact h
  | cons t rest ih =>
    have hnext := ih (h.step (Step.exec htodo)) (update_self ..)
    rw [update_idem] at hnext
    exact hnext

theorem serial_of_ends_from {P : σ → Prop} {order : List ι} (h : (system exec prog m).Ends (fun s => P s.shared) s)
    (hnodup : order.Nodup) (hall : ∀ i, i ∉ order → s.todo i = []) :
    P (serial exec s.todo order s.shared) := by
  induction order generalizing s with
  | nil =>
    apply h.of_no_step
    intro i s' hs
    cases hs with
    | exec htodo =>
      rw [hall i List.not_mem_nil] at htodo
      cases htodo
  | cons i rest ih =>
    obtain ⟨hi, hrest⟩ := List.nodup_cons.mp hnodup
    have hleft := ih (ends_alone h i) hrest (by
      intro j hj
      show update s.todo i [] j = []
      by_cases hji : j = i
      · rw [hji, update_self]
      · rw [update_of_ne hji]
        exact hall j (by simp [hji, hj]))
    -- the others still have the whole of their programs
    have hsame : ∀ j ∈ rest, update s.todo i [] j = s.todo j := by
      intro j hj
      have hji : j ≠ i := fun heq => hi (heq ▸ hj)
      exact update_of_ne hji ..
    rw [serial_congr hsame] at hleft
    exact hleft

/-- **Serial runs** are interleavings. -/
theorem serial_of_ends {P : σ → Prop} {order : List ι}
    (h : (system exec prog m).Ends (fun s => P s.shared) ⟨m, prog⟩) (hnodup : order.Nodup)
    (hall : ∀ i, i ∈ order) : P (serial exec prog order m) :=
  serial_of_ends_from h hnodup fun i hi => absurd (hall i) hi

end Programs
