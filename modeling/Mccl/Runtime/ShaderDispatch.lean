import Mathlib.Algebra.Order.Floor.Div
import Mccl.Framework.Alignment
import Mccl.Framework.Intervals

/-! # Splitting a Grid over the Nodes

    Model of `ShaderDispatch::data_parallel` (`runtime/ShaderDispatch.hpp`), with the
    widths of its integers. Every node gets the rounded down share of the elements,
    the last one also what is left.

    * `isLeast_groups`: rounding up twice is rounding up once.
    * `data_parallel_partitions_iff`: the grid is partitioned and the threadgroups are
      as few as possible, exactly if the number of nodes fits into an `int`. -/

namespace Mccl

/-- `bindings` is left empty. -/
structure NodeWork where
  node_id : UInt16
  grid_offset : UInt64
  grid_size : UInt64
  threadgroup_count : UInt32
  deriving DecidableEq, Repr

structure ShaderDispatch where
  kernel_name : String
  metallib_path : String
  global_element_count : UInt64
  threadgroup_size : UInt32
  elements_per_thread : UInt32
  node_work : List NodeWork

namespace ShaderDispatch

open Intervals

/-- The threadgroups for `grid_size` elements. -/
def groups (grid_size : UInt64) (threadgroup_size elements_per_thread : UInt32) : UInt32 :=
  let threads := (grid_size + elements_per_thread.toUInt64 - 1) / elements_per_thread.toUInt64
  ((threads + threadgroup_size.toUInt64 - 1) / threadgroup_size.toUInt64).toUInt32

/-- One round of the loop. -/
def work (total_elements elements_per_node : UInt64) (threadgroup_size elements_per_thread : UInt32)
    (node_ids : List UInt16) (num_nodes i : Nat) : NodeWork :=
  let grid_offset := UInt64.ofNat i * elements_per_node
  let grid_size := if i = num_nodes - 1 then total_elements - grid_offset else elements_per_node
  ⟨node_ids.getD i 0, grid_offset, grid_size, groups grid_size threadgroup_size elements_per_thread⟩

/-- `none` if it divides by zero. -/
def data_parallel (kernel_name metallib_path : String) (total_elements : UInt64)
    (threadgroup_size elements_per_thread : UInt32) (node_ids : List UInt16) : Option ShaderDispatch :=
  -- `static_cast<int>(node_ids.size())`
  let num_nodes := Int32.ofNat node_ids.length
  if num_nodes = 0 ∨ 0 < num_nodes ∧ (elements_per_thread = 0 ∨ threadgroup_size = 0) then none
  else
    -- for the division the `int` becomes unsigned
    let elements_per_node := total_elements / num_nodes.toInt64.toUInt64
    some
      { kernel_name := kernel_name
        metallib_path := metallib_path
        global_element_count := total_elements
        threadgroup_size := threadgroup_size
        elements_per_thread := elements_per_thread
        node_work := (List.range num_nodes.toNatClampNeg).map
          (work total_elements elements_per_node threadgroup_size elements_per_thread node_ids num_nodes.toNatClampNeg) }

/-- The work is a partition of the grid, one part for each node. A part gets the least
    number of threadgroups, if that number and the sums for rounding up are in range. -/
structure Partitions (sd : ShaderDispatch) (node_ids : List UInt16) : Prop where
  nodes : sd.node_work.map NodeWork.node_id = node_ids
  grid : Tiles 0 sd.global_element_count.toNat
    (sd.node_work.map fun nw => (nw.grid_offset.toNat, nw.grid_size.toNat))
  threadgroups : ∀ nw ∈ sd.node_work, ∀ k,
    IsLeast { k | nw.grid_size.toNat ≤ k * sd.threadgroup_size.toNat * sd.elements_per_thread.toNat } k → k < 2 ^ 32 →
    nw.grid_size.toNat + sd.elements_per_thread.toNat ≤ 2 ^ 64 →
    nw.grid_size.toNat ⌈/⌉ sd.elements_per_thread.toNat + sd.threadgroup_size.toNat ≤ 2 ^ 64 →
    nw.threadgroup_count.toNat = k

/-! ## Threadgroups -/

variable {g : UInt64} {threadgroup_size elements_per_thread : UInt32}

theorem toNat_round_up {n a : UInt64} (ha : 0 < a.toNat) (h : n.toNat + a.toNat ≤ 2 ^ 64) :
    ((n + a - 1) / a).toNat = n.toNat ⌈/⌉ a.toNat := by
  rw [UInt64.toNat_div, Alignment.toNat_add_sub_one ha, Nat.mod_eq_of_lt (by omega), Nat.ceilDiv_eq_add_pred_div,
    Nat.add_sub_assoc ha]

/-- The least number of groups of `t` threads with `e` elements each. -/
theorem isLeast_groups {n t e : Nat} (ht : 0 < t) (he : 0 < e) :
    IsLeast { k | n ≤ k * t * e } ((n ⌈/⌉ e) ⌈/⌉ t) := by
  have hle (k : Nat) : (n ⌈/⌉ e) ⌈/⌉ t ≤ k ↔ n ≤ k * t * e := by
    rw [ceilDiv_le_iff_le_mul ht, ceilDiv_le_iff_le_mul he, Nat.mul_comm e, Nat.mul_comm t]
  constructor
  · exact (hle _).mp (Nat.le_refl _)
  · intro k hk
    exact (hle k).mpr hk

theorem groups_eq (ht : 0 < threadgroup_size.toNat) (he : 0 < elements_per_thread.toNat) {k : Nat}
    (hk : IsLeast { k | g.toNat ≤ k * threadgroup_size.toNat * elements_per_thread.toNat } k) (hlt : k < 2 ^ 32)
    (hthreads : g.toNat + elements_per_thread.toNat ≤ 2 ^ 64)
    (hgroups : g.toNat ⌈/⌉ elements_per_thread.toNat + threadgroup_size.toNat ≤ 2 ^ 64) :
    (groups g threadgroup_size elements_per_thread).toNat = k := by
  simp only [groups]
  simp only [← UInt32.toNat_toUInt64 threadgroup_size, ← UInt32.toNat_toUInt64 elements_per_thread] at *
  have hthread := toNat_round_up he hthreads
  rw [← hthread] at hgroups
  rw [UInt64.toNat_toUInt32, toNat_round_up ht hgroups, hthread, (isLeast_groups ht he).unique hk, Nat.mod_eq_of_lt hlt]

/-! ## The Grid -/

/-- Where the part of node `i` of `n` starts; all parts end at `total`. -/
def bound (total n i : Nat) : Nat := if i < n then i * (total / n) else total

theorem monotone_bound (total n : Nat) : Monotone (bound total n) := by
  apply monotone_nat_of_le_succ
  intro i
  have hshare : n * (total / n) ≤ total := Nat.mul_div_le total n
  unfold bound
  split
  · split
    · exact Nat.mul_le_mul_right _ (Nat.le_succ i)
    · have hi : i * (total / n) ≤ n * (total / n) := Nat.mul_le_mul_right _ (by omega)
      omega
  · rw [if_neg (by omega)]

variable {total q : UInt64} {node_ids : List UInt16} {n i : Nat}

theorem toNat_grid_offset (hq : q.toNat = total.toNat / n) (hi : i < n) :
    (UInt64.ofNat i * q).toNat = bound total.toNat n i := by
  have hle : i * q.toNat ≤ total.toNat := by
    rw [hq]
    exact (Nat.mul_le_mul_right _ (Nat.le_of_lt hi)).trans (Nat.mul_div_le ..)
  have htotal := total.toNat_lt
  rw [bound, if_pos hi, ← hq, UInt64.toNat_mul, UInt64.toNat_ofNat', Nat.mod_mul_mod, Nat.mod_eq_of_lt (by omega)]

theorem toNat_grid_size (hq : q.toNat = total.toNat / n) (hi : i < n) :
    (if i = n - 1 then total - UInt64.ofNat i * q else q).toNat =
      bound total.toNat n (i + 1) - bound total.toNat n i := by
  have hoffset := toNat_grid_offset hq hi
  split
  · -- the last node
    have hend : bound total.toNat n (i + 1) = total.toNat := if_neg (by omega)
    have hle : UInt64.ofNat i * q ≤ total := by
      rw [UInt64.le_iff_toNat_le, hoffset]
      exact (monotone_bound total.toNat n (Nat.le_succ i)).trans_eq hend
    rw [UInt64.toNat_sub_of_le _ _ hle, hoffset, hend]
  · rw [bound, bound, if_pos hi, if_pos (by omega), Nat.succ_mul, Nat.add_sub_cancel_left, hq]

theorem tiles_work (hn : 0 < n) (hq : q.toNat = total.toNat / n) : Tiles 0 total.toNat
    (((List.range n).map (work total q threadgroup_size elements_per_thread node_ids n)).map
      fun nw => (nw.grid_offset.toNat, nw.grid_size.toNat)) := by
  have hfirst : bound total.toNat n 0 = 0 := by rw [bound, if_pos hn, Nat.zero_mul]
  have hlast : bound total.toNat n n = total.toNat := if_neg (Nat.lt_irrefl n)
  have htiles := Tiles.of_bounds (monotone_bound total.toNat n) n
  rw [hfirst, hlast] at htiles
  convert htiles using 1
  rw [List.map_map]
  apply List.map_congr_left
  intro i hi
  have hi := List.mem_range.mp hi
  exact Prod.ext (toNat_grid_offset hq hi) (toNat_grid_size hq hi)

/-! ## The Partition -/

theorem toNat_num_nodes (hn : n < 2 ^ 31) : (Int32.ofNat n).toInt64.toUInt64.toNat = n := by
  have hmax : (n : Int) ≤ Int32.maxValue.toInt := Int.le_of_lt_add_one (Int.ofNat_lt.mpr hn)
  rw [Int32.toInt64_ofNat' hmax, Int64.toUInt64_ofNat']
  exact UInt64.toNat_ofNat_of_lt' (hn.trans (by decide))

theorem data_parallel_partitions (ht : 0 < threadgroup_size) (he : 0 < elements_per_thread) (hne : node_ids ≠ [])
    (hlt : node_ids.length < 2 ^ 31) (kernel_name metallib_path : String) :
    ∃ sd, data_parallel kernel_name metallib_path total threadgroup_size elements_per_thread node_ids = some sd ∧
      sd.Partitions node_ids := by
  have hpos : 0 < node_ids.length := List.length_pos_iff.mpr hne
  have hzero : Int32.ofNat node_ids.length ≠ 0 := by
    intro hzero
    have hint := Int32.toInt_ofNat_of_lt hlt
    rw [hzero, Int32.toInt_zero] at hint
    omega
  have ht' := UInt32.lt_iff_toNat_lt.mp ht
  have he' := UInt32.lt_iff_toNat_lt.mp he
  have hdefined : ¬(Int32.ofNat node_ids.length = 0 ∨
      0 < Int32.ofNat node_ids.length ∧ (elements_per_thread = 0 ∨ threadgroup_size = 0)) := by
    rintro (h | ⟨-, rfl | rfl⟩)
    · exact hzero h
    · exact absurd he' (Nat.lt_irrefl _)
    · exact absurd ht' (Nat.lt_irrefl _)
  refine ⟨_, if_neg hdefined, ?_⟩
  simp only [Int32.toNatClampNeg_ofNat_of_lt hlt]
  constructor
  case nodes =>
    rw [List.map_map]
    apply List.ext_getElem (by simp)
    intro i _ hi
    simp [work, hi]
  case grid =>
    apply tiles_work hpos
    rw [UInt64.toNat_div, toNat_num_nodes hlt]
  case threadgroups =>
    intro nw hnw k hk hk' hthreads hgroups
    obtain ⟨i, -, rfl⟩ := List.mem_map.mp hnw
    exact groups_eq ht' he' hk hk' hthreads hgroups

/-- **The grid is partitioned** if and only if there are less than 2^31 nodes, as there
    are whenever the nodes are distinct: `num_nodes` is an `int`, and each node gets a
    part only if it is the number of nodes. -/
theorem data_parallel_partitions_iff (kernel_name metallib_path : String) (total : UInt64)
    (ht : 0 < threadgroup_size) (he : 0 < elements_per_thread) (hne : node_ids ≠ []) :
    (∃ sd, data_parallel kernel_name metallib_path total threadgroup_size elements_per_thread node_ids = some sd ∧
      sd.Partitions node_ids) ↔ node_ids.length < 2 ^ 31 := by
  constructor
  · rintro ⟨sd, hsd, hparts⟩
    simp only [data_parallel] at hsd
    split at hsd
    · cases hsd
    · cases hsd
      have hlen := congrArg List.length hparts.nodes
      simp only [List.length_map, List.length_range] at hlen
      rw [← hlen]
      exact Int32.toNatClampNeg_lt _
  · intro hlt
    exact data_parallel_partitions ht he hne hlt kernel_name metallib_path

/-- Ten elements for three nodes: three, three and four of them. -/
theorem data_parallel_partitions_three : ∃ sd, data_parallel "k" "lib" 10 4 2 [3, 5, 9] = some sd ∧
    sd.Partitions [3, 5, 9] :=
  (data_parallel_partitions_iff "k" "lib" 10 (by decide) (by decide) (by decide)).mpr (by decide)

/-- For 2^31 nodes the `int` is negative, and nobody gets any work. -/
theorem no_work_for_many_nodes : data_parallel "k" "lib" 1 1 1 (List.replicate (2 ^ 31) 0) =
    some ⟨"k", "lib", 1, 1, 1, []⟩ := by
  have hnum : (Int32.ofNat (2 ^ 31)).toNatClampNeg = 0 := by decide
  have hneg : ¬(Int32.ofNat (2 ^ 31) = 0 ∨ 0 < Int32.ofNat (2 ^ 31) ∧ ((1 : UInt32) = 0 ∨ (1 : UInt32) = 0)) := by decide
  simp only [data_parallel, List.length_replicate]
  rw [if_neg hneg, hnum]
  rfl

end ShaderDispatch

end Mccl
