import Mccl.Framework.Collective

/-! # Runs that End in an Exception

    A triple is about ranks that all return. This module is about groups in
    which one rank cannot: it raises, and the others may wait for it forever.

    * `Proc.Fails`: the program raises before it communicates.
    * `Raising`: the ranks can run together until one of them raises. The rules
      combine it with triples.
    * **Main result** (`Raising.raises`): since the steps commute, every run
      can then be continued until that rank has raised. -/

namespace ForkJoin

variable {ι κ β τ α γ : Type}

/-- Rank `r` has raised. -/
def Net.Raised (x : Net ι κ β τ) (r : ι) : Prop := ∃ msg, (x.node r).prog = .raise msg

/-! ## Without communication -/

/-- The program raises, and forks no thread before it does. -/
def Proc.Fails : Proc ι κ β τ α → Store κ β τ → Prop
  | .ret _, _ => False
  | .raise _, _ => True
  | .act f k, s => (k s).Fails (f s)
  | .par _ _, _ => False

namespace Proc

variable {s : Store κ β τ}

/-- Nothing comes after an exception. -/
theorem Fails.bind {p : Proc ι κ β τ γ} (h : p.Fails s) (g : γ → Proc ι κ β τ α) :
    (p >>= g).Fails s := by
  induction p generalizing s with
  | ret a => exact h.elim
  | raise msg => trivial
  | act f k ih => exact ih s h
  | par ts k ih => exact h.elim

theorem fails_get_bind {g : Store κ β τ → Proc ι κ β τ α} (h : (g s).Fails s) :
    (Proc.get >>= g).Fails s := h

theorem fails_check {c : Prop} [Decidable c] {msg : String} (h : ¬c) :
    (Proc.check c msg : Proc ι κ β τ Unit).Fails s := by
  unfold Proc.check
  rw [if_neg h]
  trivial

variable [DecidableEq κ]

/-- The steps to the exception. -/
theorem Fails.silent {p : Proc ι κ β τ Unit} (h : p.Fails s) :
    ∃ s' msg, Relation.ReflTransGen Silent ⟨s, p⟩ ⟨s', .raise msg⟩ := by
  induction p generalizing s with
  | ret a => exact h.elim
  | raise msg => exact ⟨s, msg, .refl⟩
  | act f k ih =>
    obtain ⟨s', msg, hrun⟩ := ih s h
    exact ⟨s', msg, .head ⟨none, .act⟩ hrun⟩
  | par ts k ih => exact h.elim

end Proc

variable [DecidableEq κ]

theorem NodeStep.fails {n n' : Node ι κ β τ} {i : Option Nat} {e : Event ι β} (h : NodeStep n i e n')
    (hn : n.prog.Fails n.store) : n'.prog.Fails n'.store := by
  cases h with
  | thread => exact hn.elim
  | join => exact hn.elim
  | act => exact hn

/-! ## In a net -/

variable [DecidableEq ι] {cap : ℕ∞}

/-- Every run from `x` can be continued until rank `r` has raised. -/
def Raises (cap : ℕ∞) (x : Net ι κ β τ) (r : ι) : Prop :=
  ∀ y, Reaches cap x y → ∃ z, Reaches cap y z ∧ z.Raised r

variable {r : ι} {x : Net ι κ β τ}

/-- An exception is final. -/
theorem Net.Raised.reaches {x y : Net ι κ β τ} (h : x.Raised r) (hxy : Reaches cap x y) :
    y.Raised r := by
  refine node_reaches (I := fun n => ∃ msg, n.prog = .raise msg) ?_ hxy h
  -- The rank cannot take a step.
  intro n i e n' hn hraise
  obtain ⟨msg, hmsg⟩ := hraise
  cases hn <;> cases hmsg

theorem fails_reaches {x y : Net ι κ β τ} (hx : (x.node r).prog.Fails (x.node r).store)
    (h : Reaches cap x y) : (y.node r).prog.Fails (y.node r).store :=
  node_reaches (I := fun n => n.prog.Fails n.store) (fun _ _ _ _ hn => hn.fails) h hx

/-- Whatever the other ranks do, a rank can take its local steps. -/
theorem reaches_of_silent {n : Node ι κ β τ}
    (h : Relation.ReflTransGen Silent (x.node r) n) : ∃ y, Reaches cap x y ∧ y.node r = n := by
  induction h with
  | refl => exact ⟨x, .refl, rfl⟩
  | tail _ hstep ih =>
    obtain ⟨y, hy, rfl⟩ := ih
    obtain ⟨i, hstep⟩ := hstep
    exact ⟨_, hy.tail (.mk hstep (.tau _)), Function.update_self ..⟩

theorem raised_of_fails (h : (x.node r).prog.Fails (x.node r).store) :
    ∃ y, Reaches cap x y ∧ y.Raised r := by
  obtain ⟨s', msg, hrun⟩ := h.silent
  obtain ⟨y, hy, hnode⟩ := reaches_of_silent hrun
  exact ⟨y, hy, msg, by rw [hnode]⟩

theorem Raises.of_fails (h : (x.node r).prog.Fails (x.node r).store) :
    Raises cap x r :=
  fun _ hy => raised_of_fails (fails_reaches h hy)

theorem Raises.start {l : List ι} {st : ι → Store κ β τ} {p : ι → Proc ι κ β τ Unit}
    (hr : r ∈ l) (h : (p r).Fails (st r)) : Raises cap (ForkJoin.start l st p) r := by
  apply Raises.of_fails
  simpa only [ForkJoin.start, quiet_node, hr, if_true] using h

/-! ## Together -/

/-- From stores in `P`, the ranks in `l` can run `p` until rank `r` raises. -/
structure Raising (cap : ℕ∞) (l : List ι) (P : (ι → Store κ β τ) → Prop)
    (p : ι → Proc ι κ β τ Unit) (r : ι) : Prop where
  raceFree : ∀ q ∈ l, (p q).RaceFree
  run : ∀ {st : ι → Store κ β τ}, P st → ∀ {k : ι → Proc ι κ β τ Unit}, (∀ q, (k q).RaceFree) →
    ∃ y, Reaches cap (quiet fun q => ⟨st q, enter l p k q⟩) y ∧ y.Raised r

namespace Raising

variable {l : List ι} {P Q : (ι → Store κ β τ) → Prop} {p q : ι → Proc ι κ β τ Unit} {r : ι}

theorem congr (h : Raising cap l P p r) (hpq : ∀ a ∈ l, q a = p a) : Raising cap l P q r where
  raceFree := fun a ha => hpq a ha ▸ h.raceFree a ha
  run := by
    intro st hst k hk
    rw [enter_congr hpq]
    exact h.run hst hk

/-- The rank raises by itself. -/
theorem of_fails (hr : r ∈ l) (hrf : ∀ a ∈ l, (p a).RaceFree)
    (h : ∀ st, P st → (p r).Fails (st r)) : Raising cap l P p r where
  raceFree := hrf
  run := by
    intro st hst k _
    apply raised_of_fails
    simp only [quiet_node, enter, hr, if_true]
    exact (h st hst).bind _

/-- What comes after the exception does not matter. -/
theorem seq (h : Raising cap l P p r) (hq : ∀ a ∈ l, (q a).RaceFree) :
    Raising cap l P (fun a => p a >>= fun _ => q a) r where
  raceFree := fun a ha => (h.raceFree a ha).bind fun _ => hq a ha
  run := by
    intro st hst k hk
    rw [enter_seq]
    exact h.run hst (Triple.enter_raceFree hq hk)

/-- The ranks return from `p` and one of them raises in `q`. -/
theorem after (hp : Triple cap l P p Q) (hq : Raising cap l Q q r) :
    Raising cap l P (fun a => p a >>= fun _ => q a) r where
  raceFree := fun a ha => (hp.raceFree a ha).bind fun _ => hq.raceFree a ha
  run := by
    intro st hst k hk
    obtain ⟨st', hst', hreach⟩ := hp.run hst (Triple.enter_raceFree hq.raceFree hk)
    obtain ⟨y, hy, hraised⟩ := hq.run hst' hk
    rw [enter_seq]
    exact ⟨y, hreach.trans hy, hraised⟩

/-- **One run decides all runs**, also about exceptions. -/
theorem raises (h : Raising cap l P p r) {st : ι → Store κ β τ} (hst : P st) :
    Raises cap (start l st p) r := by
  intro x hx
  obtain ⟨y, hy, hraised⟩ := h.run hst (k := fun _ => .ret ()) fun _ => trivial
  rw [enter_ret] at hy
  have hrf : (start l st p).RaceFree := by
    intro a
    simp only [start, quiet_node]
    split
    · exact h.raceFree a ‹_›
    · trivial
  obtain ⟨z, hxz, hyz⟩ := (step_commutes cap).confluent hrf hx hy
  exact ⟨z, hxz, hraised.reaches hyz⟩

end Raising

end ForkJoin
