import Mathlib.Data.List.Range
import Mathlib.Order.Monotone.Basic

/-! # Consecutive Intervals

    A list of intervals, each given by its start and its length.

    * `Tiles`: the intervals follow one another and cover a range exactly once.
    * `Tiles.of_bounds`: a monotone sequence of bounds cuts a range into such
      intervals, some of which may be empty. -/

namespace Intervals

/-- The intervals of `l` cover the range from `lo` to `hi`, in order and each point
    once. -/
structure Tiles (lo hi : Nat) (l : List (Nat × Nat)) : Prop where
  first : ∀ t ∈ l.head?, t.1 = lo
  last : ∀ t ∈ l.getLast?, t.1 + t.2 = hi
  adjacent : l.IsChain fun s t => s.1 + s.2 = t.1
  disjoint : l.Pairwise fun s t => s.1 + s.2 ≤ t.1
  covers : ∀ x, lo ≤ x ∧ x < hi ↔ ∃ t ∈ l, t.1 ≤ x ∧ x < t.1 + t.2

variable {b : Nat → Nat}

/-- A point between the first and the last bound is between two bounds that follow
    one another. -/
theorem exists_between {n x : Nat} (hlo : b 0 ≤ x) (hhi : x < b n) : ∃ i < n, b i ≤ x ∧ x < b (i + 1) := by
  induction n with
  | zero => omega
  | succ n ih =>
    by_cases hx : x < b n
    · obtain ⟨i, hi, hbetween⟩ := ih hx
      exact ⟨i, by omega, hbetween⟩
    · exact ⟨n, by omega, by omega, hhi⟩

/-- **Tiling by bounds.** -/
theorem Tiles.of_bounds (hb : Monotone b) (n : Nat) :
    Tiles (b 0) (b n) ((List.range n).map fun i => (b i, b (i + 1) - b i)) where
  first := by
    intro t ht
    cases n with
    | zero => cases ht
    | succ n =>
      rw [List.range_succ_eq_map] at ht
      cases ht
      rfl
  last := by
    intro t ht
    cases n with
    | zero => cases ht
    | succ n =>
      rw [List.range_succ, List.map_append, List.map_singleton, List.getLast?_concat] at ht
      cases ht
      exact Nat.add_sub_cancel' (hb (Nat.le_succ n))
  adjacent := by
    apply List.isChain_iff_getElem.mpr
    intro i hi
    simp only [List.getElem_map, List.getElem_range]
    exact Nat.add_sub_cancel' (hb (Nat.le_succ i))
  disjoint := by
    apply List.pairwise_map.mpr
    apply List.pairwise_lt_range.imp
    intro i j hij
    show b i + (b (i + 1) - b i) ≤ b j
    rw [Nat.add_sub_cancel' (hb (Nat.le_succ i))]
    exact hb hij
  covers := by
    intro x
    simp only [List.mem_map, List.mem_range]
    constructor
    · rintro ⟨hlo, hhi⟩
      obtain ⟨i, hi, hle, hlt⟩ := exists_between hlo hhi
      exact ⟨_, ⟨i, hi, rfl⟩, hle, by show x < b i + (b (i + 1) - b i); omega⟩
    · rintro ⟨_, ⟨i, hi, rfl⟩, hle, hlt⟩
      have hfirst : b 0 ≤ b i := hb (Nat.zero_le i)
      have hlast : b (i + 1) ≤ b n := hb hi
      simp only at hle hlt
      omega

end Intervals
