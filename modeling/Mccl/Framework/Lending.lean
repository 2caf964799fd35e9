import Mathlib.Algebra.Order.BigOperators.Group.Multiset
import Mathlib.Algebra.Order.Group.Nat
import Mathlib.Data.Finset.Card
import Mathlib.Data.Multiset.Bind

/-! # Lending

    Pools of items that are lent out and given back. An item occupies places that
    no other item may occupy, and has a weight; every loan has a number.

    * A pool makes a new item when it has none to lend, and may discard the free
      ones. `total` is the weight that a pool believes to have made, `good` what is
      known of the items it makes.
    * `Inv`: no two live items occupy the same place, the totals are the weights of
      the live items, and every loan is outstanding or has been given back once.
    * `Step.inv`: every step keeps the invariant. -/

namespace Lending

open Function

variable {ι β α : Type}

@[ext]
structure State (ι β : Type) where
  /-- The items of each pool that are not lent. -/
  free : ι → Multiset β
  /-- Items that are lent, with the pool and the number of the loan. -/
  lent : Multiset (ι × β × Nat)
  total : ι → Nat
  /-- The number of the next loan. -/
  next : Nat
  /-- The loans that have been given back. -/
  returned : Multiset Nat

section

variable [DecidableEq ι]

/-- The items of a pool that are lent. -/
def State.out (s : State ι β) (i : ι) : Multiset β := (s.lent.filter fun l => l.1 = i).map fun l => l.2.1

/-- The items of a pool. -/
def State.live (s : State ι β) (i : ι) : Multiset β := s.free i + s.out i

end

/-- The places that some items occupy. -/
def occupied (occ : β → Finset α) (m : Multiset β) : Multiset α := m.bind fun x => (occ x).val

section Steps

variable [DecidableEq ι] (occ : β → Finset α) (weight : β → Nat) (good : ι → β → Prop)

/-- The item occupies no place of a live one. -/
def Fresh (s : State ι β) (x : β) : Prop := ∀ j, Disjoint (occ x).val (occupied occ (s.live j))

inductive Step : State ι β → State ι β → Prop where
  /-- A new item is made and lent. -/
  | create {s : State ι β} {i : ι} {x : β} (hgood : good i x) (h : Fresh occ s x) :
      Step s
        { s with
          lent := (i, x, s.next) ::ₘ s.lent
          total := Function.update s.total i (s.total i + weight x)
          next := s.next + 1 }
  | lend {s : State ι β} {i : ι} {x : β} {rest : Multiset β} (h : s.free i = x ::ₘ rest) :
      Step s
        { s with
          free := Function.update s.free i rest
          lent := (i, x, s.next) ::ₘ s.lent
          next := s.next + 1 }
  | giveBack {s : State ι β} {i : ι} {x : β} {k : Nat} {rest : Multiset (ι × β × Nat)}
      (h : s.lent = (i, x, k) ::ₘ rest) :
      Step s
        { s with
          free := Function.update s.free i (x ::ₘ s.free i)
          lent := rest
          returned := k ::ₘ s.returned }
  | discard {s : State ι β} (i : ι) :
      Step s
        { s with
          free := Function.update s.free i 0
          total := Function.update s.total i (s.total i - ((s.free i).map weight).sum) }

structure Inv (s : State ι β) : Prop where
  /-- No two items of a pool share a place. -/
  nodup : ∀ i, (occupied occ (s.live i)).Nodup
  /-- Nor do items of two pools. -/
  apart : ∀ i j, i ≠ j → Disjoint (occupied occ (s.live i)) (occupied occ (s.live j))
  totals : ∀ i, s.total i = ((s.live i).map weight).sum
  good : ∀ i, ∀ x ∈ s.live i, good i x
  /-- Every loan is outstanding or has been given back, and not both. -/
  loans : s.returned + s.lent.map (fun l => l.2.2) = Multiset.range s.next

end Steps

section Lemmas

variable [DecidableEq ι] {occ : β → Finset α} {weight : β → Nat} {good : ι → β → Prop} {s s' : State ι β} {i j : ι}
  {x : β}

theorem occupied_cons (x : β) (m : Multiset β) : occupied occ (x ::ₘ m) = (occ x).val + occupied occ m :=
  Multiset.cons_bind ..

theorem mem_occupied {m : Multiset β} {a : α} : a ∈ occupied occ m ↔ ∃ x ∈ m, a ∈ occ x := Multiset.mem_bind

/-- Items that share no place are told apart by any of their places. -/
theorem nodup_map_of_occupied {f : β → α} (hf : ∀ x, f x ∈ occ x) {m : Multiset β} (h : (occupied occ m).Nodup) :
    (m.map f).Nodup := by
  induction m using Multiset.induction_on with
  | empty => exact Multiset.nodup_zero
  | cons x m ih =>
    rw [occupied_cons, Multiset.nodup_add] at h
    obtain ⟨-, hm, hdisjoint⟩ := h
    rw [Multiset.map_cons, Multiset.nodup_cons]
    refine ⟨fun hx => ?_, ih hm⟩
    obtain ⟨y, hy, hxy⟩ := Multiset.mem_map.mp hx
    exact Multiset.disjoint_left.mp hdisjoint (hf x) (mem_occupied.mpr ⟨y, hy, hxy ▸ hf y⟩)

/-- Items that share no place weigh at most what there are places. -/
theorem sum_weight_le {m : Multiset β} {places : Finset α} (h : (occupied occ m).Nodup)
    (hplaces : ∀ x ∈ m, occ x ⊆ places) (hweight : ∀ x, weight x ≤ (occ x).card) :
    (m.map weight).sum ≤ places.card := by
  have hsum : (m.map weight).sum ≤ (occupied occ m).card := by
    rw [occupied, Multiset.card_bind]
    exact Multiset.sum_map_le_sum_map _ _ fun x _ => hweight x
  refine hsum.trans ?_
  show (⟨occupied occ m, h⟩ : Finset α).card ≤ places.card
  apply Finset.card_le_card
  intro a ha
  obtain ⟨x, hx, hax⟩ := mem_occupied.mp ha
  exact hplaces x hx hax

theorem out_cons_self {rest : Multiset (ι × β × Nat)} {k : Nat} (h : s.lent = (i, x, k) ::ₘ rest) :
    s.out i = x ::ₘ (rest.filter fun l => l.1 = i).map fun l => l.2.1 := by
  simp [State.out, h]

theorem out_cons_ne {rest : Multiset (ι × β × Nat)} {k : Nat} (h : s.lent = (i, x, k) ::ₘ rest) (hj : j ≠ i) :
    s.out j = (rest.filter fun l => l.1 = j).map fun l => l.2.1 := by
  simp [State.out, h, Ne.symm hj]

theorem live_create_self {k : Nat} (hfree : s'.free = s.free) (hlent : s'.lent = (i, x, k) ::ₘ s.lent) :
    s'.live i = x ::ₘ s.live i := by
  rw [State.live, out_cons_self hlent, hfree, Multiset.add_cons]
  rfl

theorem live_create_ne {k : Nat} (hj : j ≠ i) (hfree : s'.free = s.free) (hlent : s'.lent = (i, x, k) ::ₘ s.lent) :
    s'.live j = s.live j := by
  rw [State.live, out_cons_ne hlent hj, hfree]
  rfl

/-- What a step does to the items of a pool: they stay, a new one is made, or the
    free ones are gone. -/
inductive LiveStep (occ : β → Finset α) (weight : β → Nat) (good : ι → β → Prop) (s s' : State ι β) (i : ι) : Prop where
  | same (hlive : s'.live i = s.live i) (htotal : s'.total i = s.total i)
  | made {x : β} (hgood : good i x) (hfresh : Fresh occ s x) (hlive : s'.live i = x ::ₘ s.live i)
      (htotal : s'.total i = s.total i + weight x)
      (hothers : ∀ j, j ≠ i → s'.live j = s.live j)
  | dropped (hlive : s.live i = s.free i + s'.live i)
      (htotal : s'.total i = s.total i - ((s.free i).map weight).sum)

theorem Step.live (h : Step occ weight good s s') (i : ι) : LiveStep occ weight good s s' i := by
  cases h with
  | @create j x hgood hfresh =>
    by_cases hi : i = j
    · subst hi
      refine .made hgood hfresh ?_ (update_self ..) fun k hk => ?_
      · apply live_create_self
        · rfl
        · rfl
      · apply live_create_ne hk
        · rfl
        · rfl
    · refine .same ?_ (update_of_ne hi ..)
      apply live_create_ne hi
      · rfl
      · rfl
  | @lend j x rest hfree =>
    refine .same ?_ rfl
    by_cases hi : i = j
    · subst hi
      rw [State.live, out_cons_self rfl, Multiset.add_cons, State.live, hfree, Multiset.cons_add]
      show x ::ₘ (update s.free i rest i + _) = _
      rw [update_self]
      rfl
    · rw [State.live, out_cons_ne rfl hi]
      show update s.free j rest i + _ = _
      rw [update_of_ne hi]
      rfl
  | @giveBack j x k rest hlent =>
    refine .same ?_ rfl
    by_cases hi : i = j
    · subst hi
      rw [State.live, State.live, out_cons_self hlent, Multiset.add_cons]
      show update s.free i (x ::ₘ s.free i) i + _ = _
      rw [update_self, Multiset.cons_add]
      rfl
    · rw [State.live, State.live, out_cons_ne hlent hi]
      show update s.free j (x ::ₘ s.free j) i + _ = _
      rw [update_of_ne hi]
      rfl
  | discard j =>
    by_cases hi : i = j
    · subst hi
      refine .dropped ?_ (update_self ..)
      show s.free i + s.out i = s.free i + (update s.free i 0 i + s.out i)
      rw [update_self, zero_add]
    · refine .same ?_ (update_of_ne hi ..)
      show update s.free j 0 i + s.out i = s.live i
      rw [update_of_ne hi]
      rfl

/-- Places are never shared by a step that makes nothing. -/
theorem LiveStep.occupied (h : LiveStep occ weight good s s' i) :
    (∃ x, Fresh occ s x ∧ occupied occ (s'.live i) = (occ x).val + occupied occ (s.live i) ∧
      ∀ j, j ≠ i → s'.live j = s.live j) ∨
    occupied occ (s'.live i) ≤ occupied occ (s.live i) := by
  cases h with
  | same hlive _ => exact .inr (le_of_eq (by rw [hlive]))
  | made _ hfresh hlive _ hothers => exact .inl ⟨_, hfresh, by rw [hlive, occupied_cons], hothers⟩
  | dropped hlive _ =>
    refine .inr ?_
    rw [hlive, Lending.occupied, Lending.occupied, Multiset.add_bind]
    exact Multiset.le_add_left ..

theorem Step.totals (h : Step occ weight good s s') (hI : Inv occ weight good s) (i : ι) :
    s'.total i = ((s'.live i).map weight).sum := by
  have htotal := hI.totals i
  cases h.live i with
  | same hlive htotal' => rw [hlive, htotal', htotal]
  | made _ _ hlive htotal' _ => rw [hlive, htotal', htotal, Multiset.map_cons, Multiset.sum_cons, Nat.add_comm]
  | dropped hlive htotal' =>
    rw [hlive, Multiset.map_add, Multiset.sum_add] at htotal
    rw [htotal', htotal, Nat.add_sub_cancel_left]

theorem Step.loans (h : Step occ weight good s s') (hI : Inv occ weight good s) :
    s'.returned + s'.lent.map (fun l => l.2.2) = Multiset.range s'.next := by
  have hloans := hI.loans
  cases h with
  | create hgood hfresh | lend hfree =>
    show s.returned + Multiset.map _ (_ ::ₘ s.lent) = Multiset.range (s.next + 1)
    rw [Multiset.map_cons, Multiset.add_cons, hloans, Multiset.range_succ]
  | giveBack hlent =>
    rw [hlent, Multiset.map_cons, Multiset.add_cons] at hloans
    show _ ::ₘ s.returned + _ = _
    rw [Multiset.cons_add]
    exact hloans
  | discard i => exact hloans

theorem Step.made_good (h : Step occ weight good s s') (hI : Inv occ weight good s) (i : ι) : ∀ x ∈ s'.live i, good i x := by
  have hgood := hI.good i
  cases h.live i with
  | same hlive _ =>
    rw [hlive]
    exact hgood
  | made hx _ hlive _ _ =>
    rw [hlive]
    exact Multiset.forall_mem_cons.mpr ⟨hx, hgood⟩
  | dropped hlive _ =>
    intro x hx
    apply hgood x
    rw [hlive]
    exact Multiset.mem_add.mpr (.inr hx)

/-- **Lending** keeps the invariant. -/
theorem Step.inv (h : Step occ weight good s s') (hI : Inv occ weight good s) : Inv occ weight good s' := by
  refine ⟨fun i => ?_, fun i j hij => ?_, h.totals hI, h.made_good hI, h.loans hI⟩
  · rcases (h.live i).occupied with ⟨x, hfresh, hocc, -⟩ | hle
    · rw [hocc, Multiset.nodup_add]
      exact ⟨(occ x).nodup, hI.nodup i, hfresh i⟩
    · exact Multiset.nodup_of_le hle (hI.nodup i)
  · have hdisjoint := hI.apart i j hij
    rcases (h.live i).occupied with ⟨x, hfresh, hocc, hothers⟩ | hle
    · rw [hocc, hothers j (Ne.symm hij), Multiset.disjoint_add_left]
      exact ⟨hfresh j, hdisjoint⟩
    rcases (h.live j).occupied with ⟨y, hfresh, hocc, hothers⟩ | hle'
    · rw [hocc, hothers i hij, Multiset.disjoint_add_right]
      exact ⟨(hfresh i).symm, hdisjoint⟩
    · exact hdisjoint.mono hle hle'

end Lemmas

end Lending
