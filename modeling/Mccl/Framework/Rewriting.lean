import Mathlib.Logic.Relation

/-! # Commuting Steps and Unique Outcomes

    A transition system whose steps commute pairwise has the same outcome
    on every schedule. This module proves the consequences that the rest
    of the development uses:

    * **one complete run decides all runs**: if *some* run from `s` ends in
      a terminal state `f`, every run from `s` can be extended to `f`;
    * **unique outcome**: the terminal state is the same for all runs;
    * **confluence**: any two runs can be continued to a common state;
    * **termination**: no run from `s` is infinite.

    The commutation is only asked of states that satisfy an invariant,
    which the steps preserve. -/

namespace Rewriting

variable {State : Type} {step : State → State → Prop} {inv : State → Prop}

/-! ### Definitions -/

/-- No step leaves `s`. -/
def Terminal (step : State → State → Prop) (s : State) : Prop := ∀ s', ¬ step s s'

/-- `Run step n s s'`: a run of exactly `n` steps from `s` to `s'`. -/
inductive Run (step : State → State → Prop) : Nat → State → State → Prop where
  | nil (s : State) : Run step 0 s s
  | cons {n : Nat} {s s' s'' : State} : step s s' → Run step n s' s'' → Run step (n + 1) s s''

/-- Any two different steps from a state satisfying `inv` can be taken in
    either order, with the same result. -/
structure Commutes (step : State → State → Prop) (inv : State → Prop) : Prop where
  preserved : ∀ {s s'}, inv s → step s s' → inv s'
  diamond : ∀ {s a b}, inv s → step s a → step s b → a = b ∨ ∃ c, step a c ∧ step b c

/-! ### Runs -/

variable {n : Nat} {s s' a f x : State}

theorem Run.reflTransGen (h : Run step n s s') :
    Relation.ReflTransGen step s s' := by
  induction h with
  | nil s => exact .refl
  | cons hstep _ ih => exact .head hstep ih

theorem exists_run (h : Relation.ReflTransGen step s s') :
    ∃ n, Run step n s s' := by
  induction h using Relation.ReflTransGen.head_induction_on with
  | refl => exact ⟨0, .nil _⟩
  | head hstep _ ih =>
    obtain ⟨n, hrun⟩ := ih
    exact ⟨n + 1, .cons hstep hrun⟩

theorem Terminal.eq_of_reaches (ht : Terminal step s)
    (h : Relation.ReflTransGen step s s') : s' = s := by
  induction h using Relation.ReflTransGen.head_induction_on with
  | refl => rfl
  | head hstep _ _ => exact absurd hstep (ht _)

/-- An invariant of the steps holds along every run. -/
theorem invariant_reaches (inv : State → Prop) (hpres : ∀ {s s'}, inv s → step s s' → inv s')
    (hs : inv s) (h : Relation.ReflTransGen step s s') : inv s' := by
  induction h with
  | refl => exact hs
  | tail _ hstep ih => exact hpres ih hstep

/-! ### Consequences of commutation -/

/-- A first step that deviates from a run to a terminal state costs nothing:
    the rest of the run can be caught up with in one step fewer. -/
theorem Commutes.catch_up (hc : Commutes step inv) (hs : inv s)
    (hrun : Run step (n + 1) s f) (hf : Terminal step f) (ha : step s a) : Run step n a f := by
  induction n generalizing s a with
  | zero =>
    cases hrun with
    | cons hb hrest =>
      cases hrest
      rcases hc.diamond hs ha hb with rfl | ⟨c, _, hbc⟩
      · exact .nil _
      · exact absurd hbc (hf c)
  | succ n ih =>
    cases hrun with
    | cons hb hrest =>
      rcases hc.diamond hs ha hb with rfl | ⟨c, hac, hbc⟩
      · exact hrest
      · exact .cons hac (ih (hc.preserved hs hb) hrest hbc)

/-- Once some run from `s` ends in the terminal state `f`, every run from
    `s` leads to `f`, in the number of steps that is left. -/
theorem Commutes.run_extends (hc : Commutes step inv) {m : Nat} (hs : inv s)
    (hrun : Run step n s f) (hf : Terminal step f) (hx : Run step m s x) :
    ∃ k, m + k = n ∧ Run step k x f := by
  induction hx generalizing n with
  | nil s => exact ⟨n, by omega, hrun⟩
  | cons hstep _ ih =>
    cases n with
    | zero =>
      cases hrun
      exact absurd hstep (hf _)
    | succ n =>
      obtain ⟨k, hk, hxf⟩ := ih (hc.preserved hs hstep) (hc.catch_up hs hrun hf hstep)
      exact ⟨k, by omega, hxf⟩

theorem Commutes.reaches_terminal (hc : Commutes step inv) (hs : inv s)
    (hf : Relation.ReflTransGen step s f) (ht : Terminal step f)
    (hx : Relation.ReflTransGen step s x) : Relation.ReflTransGen step x f := by
  obtain ⟨n, hn⟩ := exists_run hf
  obtain ⟨m, hm⟩ := exists_run hx
  obtain ⟨k, _, hk⟩ := hc.run_extends hs hn ht hm
  exact hk.reflTransGen

/-- A first step that deviates from a run can be made up for. -/
theorem Commutes.strip (hc : Commutes step inv) {b : State} (hs : inv s) (ha : step s a)
    (hb : Relation.ReflTransGen step s b) :
    ∃ c, Relation.ReflTransGen step a c ∧ Relation.ReflTransGen step b c := by
  -- Induction on the run to `b`; the deviating step moves along with it.
  induction hb using Relation.ReflTransGen.head_induction_on generalizing a with
  | refl => exact ⟨a, .refl, .single ha⟩
  | head hstep hrest ih =>
    rcases hc.diamond hs ha hstep with rfl | ⟨d, had, hd⟩
    · exact ⟨b, hrest, .refl⟩
    · obtain ⟨c, hdc, hbc⟩ := ih (hc.preserved hs hstep) hd
      exact ⟨c, .head had hdc, hbc⟩

/-- Any two runs can be continued to a common state. -/
theorem Commutes.confluent (hc : Commutes step inv) {b : State} (hs : inv s)
    (ha : Relation.ReflTransGen step s a) (hb : Relation.ReflTransGen step s b) :
    ∃ c, Relation.ReflTransGen step a c ∧ Relation.ReflTransGen step b c := by
  induction ha using Relation.ReflTransGen.head_induction_on generalizing b with
  | refl => exact ⟨b, hb, .refl⟩
  | head hstep _ ih =>
    obtain ⟨d, hd, hbd⟩ := hc.strip hs hstep hb
    obtain ⟨c, hac, hdc⟩ := ih (hc.preserved hs hstep) hd
    exact ⟨c, hac, hbd.trans hdc⟩

/-- The outcome does not depend on the schedule. -/
theorem Commutes.terminal_unique (hc : Commutes step inv) (hs : inv s)
    (hf : Relation.ReflTransGen step s f) (htf : Terminal step f)
    (hx : Relation.ReflTransGen step s x) (htx : Terminal step x) : x = f :=
  (htx.eq_of_reaches (hc.reaches_terminal hs hf htf hx)).symm

/-- No infinite run starts from a state with a complete run. -/
theorem Commutes.terminates (hc : Commutes step inv) (hs : inv s)
    (hf : Relation.ReflTransGen step s f) (ht : Terminal step f) :
    Acc (fun b a => step a b) s := by
  obtain ⟨n, hn⟩ := exists_run hf
  clear hf
  induction n generalizing s with
  | zero =>
    cases hn
    exact Acc.intro _ fun y hy => absurd hy (ht y)
  | succ n ih =>
    exact Acc.intro _ fun y hy => ih (hc.preserved hs hy) (hc.catch_up hs hn ht hy)

end Rewriting
