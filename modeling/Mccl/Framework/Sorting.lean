import Mathlib.Data.List.Pairwise
import Mathlib.Data.List.Perm.Subperm

/-! # What a Sort May Leave

    A sort that is not stable may leave any permutation that is in order.

    * `exists_sorted_pair`: two entries that are in order are left one before the
      other by some sort, whatever else is in the list.
    * `forall_sorted_map_iff`: all results of a sort are in order after their
      entries have been changed if and only if each pair that a sort may leave in
      this order is. -/

namespace Sorting

variable {α β : Type} {le : α → α → Bool} {l : List α}

/-- `order` is a result of sorting `l`. -/
def Sorted (le : α → α → Bool) (l order : List α) : Prop := order.Perm l ∧ order.Pairwise fun a b => le a b = true

/-- Some sort leaves `a` before `b`. -/
theorem exists_sorted_pair (htrans : ∀ a b c, le a b = true → le b c = true → le a c = true)
    (htotal : ∀ a b, (le a b || le b a) = true) {a b : α} (hab : le a b = true) (hmem : [a, b].Subperm l) :
    ∃ order, Sorted le l order ∧ [a, b].Sublist order := by
  -- a stable sort of a list with the pair in this order keeps the pair
  obtain ⟨l', hperm, hsub⟩ := List.subperm_iff.mp hmem
  refine ⟨l'.mergeSort le, ⟨?_, List.pairwise_mergeSort htrans htotal _⟩, ?_⟩
  · exact (List.mergeSort_perm ..).trans hperm
  · exact List.pair_sublist_mergeSort htrans htotal hab hsub

/-- **Order after a change of the entries.** -/
theorem forall_sorted_map_iff (htrans : ∀ a b c, le a b = true → le b c = true → le a c = true)
    (htotal : ∀ a b, (le a b || le b a) = true) (f : α → β) (R : β → β → Prop) :
    (∀ order, Sorted le l order → (order.map f).Pairwise R) ↔
      ∀ a b, [a, b].Subperm l → le a b = true → R (f a) (f b) := by
  constructor
  · intro h a b hmem hab
    obtain ⟨order, hsorted, hsub⟩ := exists_sorted_pair htrans htotal hab hmem
    exact List.pairwise_pair.mp ((h order hsorted).sublist (hsub.map f))
  · intro h order hsorted
    apply List.pairwise_map.mpr
    apply List.pairwise_iff_forall_sublist.mpr
    intro a b hsub
    exact h a b (hsub.subperm.trans hsorted.1.subperm) (List.pairwise_iff_forall_sublist.mp hsorted.2 hsub)

end Sorting
