import Mathlib.Algebra.BigOperators.Intervals
import Mathlib.Algebra.Group.WithOne.Basic
import Mathlib.Data.Nat.ModEq

/-! # Reductions in Any Order

    `reduce op x n` combines the values `x 0`, ..., `x n` from the left, and
    `Combines op x l y` says that `y` combines the values at the indices in `l`,
    each of them once, in whatever order.

    For a commutative and associative operation all of these are the same
    (`Combines.eq_reduce`). Since there need not be a neutral element, the
    values are compared as products in `WithOne α`. -/

namespace Reduction

variable {α : Type}

/-- `x 0`, ..., `x n`, combined from the left. -/
def reduce (op : α → α → α) (x : Nat → α) : Nat → α
  | 0 => x 0
  | n + 1 => op (reduce op x n) (x (n + 1))

/-- `y` combines the values at the indices in `l`, each of them once. -/
inductive Combines (op : α → α → α) (x : Nat → α) : List Nat → α → Prop where
  | value (r : Nat) : Combines op x [r] (x r)
  | combine {l l' : List Nat} {y y' : α} (h : Combines op x l y) (h' : Combines op x l' y') :
      Combines op x (l ++ l') (op y y')
  | perm {l l' : List Nat} {y : α} (hl : l.Perm l') (h : Combines op x l y) : Combines op x l' y

/-- The operation as a multiplication. -/
abbrev semigroup {op : α → α → α} (hcomm : Std.Commutative op) (hassoc : Std.Associative op) :
    CommSemigroup α where
  mul := op
  mul_assoc := hassoc.assoc
  mul_comm := hcomm.comm

/-- A list that has every number below `n` once. -/
theorem perm_range {l : List Nat} {n : Nat} (hnd : l.Nodup) (hlt : ∀ r ∈ l, r < n)
    (hlen : n ≤ l.length) : l.Perm (List.range n) := by
  have hsub : l ⊆ List.range n := fun r hr => List.mem_range.mpr (hlt r hr)
  apply (List.subperm_of_subset hnd hsub).perm_of_length_le
  rwa [List.length_range]

/-- Going once around, starting at `c`. -/
theorem perm_rotate {w c : Nat} (hc : c < w) :
    ((List.range w).map fun i => (c + i) % w).Perm (List.range w) := by
  apply perm_range
  · apply List.nodup_range.map_on
    intro i hi j hj hij
    rw [List.mem_range] at hi hj
    have hmod : Nat.ModEq w (c + i) (c + j) := hij
    exact (Nat.ModEq.add_left_cancel' c hmod).eq_of_lt_of_lt hi hj
  · intro r hr
    obtain ⟨i, -, rfl⟩ := List.mem_map.mp hr
    exact Nat.mod_lt _ (by omega)
  · simp

theorem reduce_combines (op : α → α → α) (x : Nat → α) (n : Nat) :
    Combines op x (List.range (n + 1)) (reduce op x n) := by
  induction n with
  | zero => exact .value 0
  | succ n ih =>
    rw [List.range_succ]
    exact .combine ih (.value (n + 1))

theorem Combines.congr {op : α → α → α} {x x' : Nat → α} {l : List Nat} {y : α}
    (h : Combines op x l y) (hx : ∀ r ∈ l, x r = x' r) : Combines op x' l y := by
  induction h with
  | value r =>
    rw [hx r (List.mem_singleton_self r)]
    exact .value r
  | combine _ _ ih ih' =>
    apply Combines.combine
    · exact ih fun r hr => hx r (List.mem_append_left _ hr)
    · exact ih' fun r hr => hx r (List.mem_append_right _ hr)
  | perm hl _ ih => exact .perm hl (ih fun r hr => hx r (hl.subset hr))

theorem Combines.coe [CommSemigroup α] {x : Nat → α} {l : List Nat} {y : α}
    (h : Combines (· * ·) x l y) : (y : WithOne α) = (l.map fun r => (x r : WithOne α)).prod := by
  induction h with
  | value r => simp
  | combine _ _ ih ih' => rw [WithOne.coe_mul, ih, ih', List.map_append, List.prod_append]
  | perm hl _ ih => exact ih.trans (hl.map _).prod_eq

theorem Combines.eq_reduce {op : α → α → α} (hcomm : Std.Commutative op)
    (hassoc : Std.Associative op) {x : Nat → α} {n : Nat} {y : α}
    (h : Combines op x (List.range (n + 1)) y) : y = reduce op x n := by
  let _ := semigroup hcomm hassoc
  exact WithOne.coe_inj.mp (h.coe.trans (reduce_combines op x n).coe.symm)

end Reduction
