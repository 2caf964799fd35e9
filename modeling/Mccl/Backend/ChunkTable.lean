import Mccl.Backend.ProcessGroup
import Mccl.Framework.Intervals

/-! # The Chunks of an Allreduce and its Scratch

    `chunkize` (`backend/AllreduceAlgos.cpp`) with the widths of its integers, against
    the unbounded integers of the model of the algorithms, and against the scratch that
    `ProcessGroupMCCL::allreduce` allocates. The two sides round up for themselves, and
    the algorithm gets the number of elements modulo 2^32.

    * `chunkize_eq`: without an overflow of the signed sum, the table is that of the
      model, its byte counts modulo 2^64.
    * `chunks_tile_and_fit`: the chunks tile the tensor, and what is received fits. -/

namespace Mccl.ChunkTable

open Intervals

structure ChunkInfo where
  elem_start : Int64
  elem_count : Int64
  byte_off : UInt64
  byte_len : UInt64
  deriving DecidableEq, Repr

/-- One round of the loop. -/
def chunk (numel per : Int64) (elem_size : UInt64) (i : Nat) : ChunkInfo :=
  let s := min (Int64.ofNat i * per) numel
  let e := min (Int64.ofNat (i + 1) * per) numel
  ⟨s, e - s, s.toUInt64 * elem_size, (e - s).toUInt64 * elem_size⟩

/-- The signed sum wraps around here; in the source it is undefined then. -/
def chunkize (numel : Int64) (elem_size : UInt64) (world : Int32) : List ChunkInfo :=
  let per := (numel + world.toInt64 - 1) / world.toInt64
  (List.range world.toNatClampNeg).map (chunk numel per elem_size)

/-- A chunk of the model in the types of the source. -/
def ofModel (c : Mccl.ChunkInfo) : ChunkInfo :=
  ⟨Int64.ofNat c.elem_start, Int64.ofNat c.elem_count, UInt64.ofNat c.byte_off, UInt64.ofNat c.byte_len⟩

/-! ## Against the Model -/

variable {n w : Nat}

theorem ofNat_min {a b : Nat} (ha : a < 2 ^ 63) (hb : b < 2 ^ 63) :
    min (Int64.ofNat a) (Int64.ofNat b) = Int64.ofNat (min a b) := by
  have hle := Int64.ofNat_le_iff_le ha hb
  show (if Int64.ofNat a ≤ Int64.ofNat b then Int64.ofNat a else Int64.ofNat b) = _
  by_cases h : a ≤ b
  · rw [if_pos (hle.mpr h), Nat.min_eq_left h]
  · rw [if_neg (fun h' => h (hle.mp h')), Nat.min_eq_right (by omega)]

theorem per_mul_le {i : Nat} (hi : i ≤ w) : i * per_chunk n w ≤ n + w - 1 := by
  calc i * per_chunk n w ≤ w * per_chunk n w := Nat.mul_le_mul_right _ hi
    _ ≤ n + w - 1 := Nat.mul_div_le _ _

theorem per_eq (hw : 0 < w) (hsum : n + w < 2 ^ 63) :
    (Int64.ofNat n + Int64.ofNat w - 1) / Int64.ofNat w = Int64.ofNat (per_chunk n w) := by
  have hone : Int64.ofNat (n + w - 1) = Int64.ofNat n + Int64.ofNat w - 1 := by
    rw [Int64.ofNat_sub _ _ (by omega), Int64.ofNat_add]
    rfl
  rw [← hone, per_chunk, Int64.ofNat_div (by omega) (by omega)]

theorem chunk_eq (elem_size : Nat) (hw : 0 < w) (hsum : n + w < 2 ^ 63) {i : Nat} (hi : i < w) :
    chunk (Int64.ofNat n) (Int64.ofNat (per_chunk n w)) (UInt64.ofNat elem_size) i =
      ofModel (Mccl.chunkize n elem_size w i) := by
  have hhi : (i + 1) * per_chunk n w ≤ n + w - 1 := per_mul_le hi
  have hstep : i * per_chunk n w ≤ (i + 1) * per_chunk n w := Nat.mul_le_mul_right _ (Nat.le_succ i)
  have hle := min_le_min_right n hstep
  simp only [chunk, ofModel, Mccl.chunkize]
  rw [← Int64.ofNat_mul, ← Int64.ofNat_mul, ofNat_min (by omega) (by omega), ofNat_min (by omega) (by omega),
    ← Int64.ofNat_sub _ _ hle, Int64.toUInt64_ofNat', Int64.toUInt64_ofNat', UInt64.ofNat_mul, UInt64.ofNat_mul]

/-- **Refinement**: the table of the source is the table of the model. -/
theorem chunkize_eq (elem_size : Nat) (hw : 0 < w) (hw' : w < 2 ^ 31) (hsum : n + w < 2 ^ 63) :
    chunkize (Int64.ofNat n) (UInt64.ofNat elem_size) (Int32.ofNat w) =
      (List.range w).map fun i => ofModel (Mccl.chunkize n elem_size w i) := by
  have hmax : (w : Int) ≤ Int32.maxValue.toInt := Int.le_of_lt_add_one (Int.ofNat_lt.mpr hw')
  simp only [chunkize]
  rw [Int32.toNatClampNeg_ofNat_of_lt hw', Int32.toInt64_ofNat' hmax, per_eq hw hsum]
  apply List.map_congr_left
  intro i hi
  exact chunk_eq elem_size hw hsum (List.mem_range.mp hi)

/-! ## The Tiling -/

/-- The chunks tile the tensor, their bytes follow, and none is larger than the
    rounded up share. -/
structure Covers (numel : Int64) (elem_size : UInt64) (world : Int32) (chunks : List ChunkInfo) : Prop where
  tiles : Tiles 0 numel.toNatClampNeg
    (chunks.map fun c => (c.elem_start.toNatClampNeg, c.elem_count.toNatClampNeg))
  nonneg : ∀ c ∈ chunks, 0 ≤ c.elem_start ∧ 0 ≤ c.elem_count
  bytes : ∀ c ∈ chunks, c.byte_off.toNat = elem_size.toNat * c.elem_start.toNatClampNeg ∧
    c.byte_len.toNat = elem_size.toNat * c.elem_count.toNatClampNeg
  share : ∀ c ∈ chunks, c.elem_count.toNatClampNeg ≤ per_chunk numel.toNatClampNeg world.toNatClampNeg

theorem tiles_model (elem_size : Nat) (hw : 0 < w) : Tiles 0 n ((List.range w).map fun i =>
    ((Mccl.chunkize n elem_size w i).elem_start, (Mccl.chunkize n elem_size w i).elem_count)) := by
  have hmono : Monotone fun i => min (i * per_chunk n w) n := by
    intro i j hij
    exact min_le_min_right n (Nat.mul_le_mul_right _ hij)
  have htiles := Tiles.of_bounds hmono w
  have hend : min (w * per_chunk n w) n = n := Nat.min_eq_right (AllreduceGroup.numel_le_per_chunk hw)
  simp only [Nat.zero_mul, Nat.zero_min, hend] at htiles
  exact htiles

theorem chunk_le (n elem_size w i : Nat) : (Mccl.chunkize n elem_size w i).elem_start ≤ n ∧
    (Mccl.chunkize n elem_size w i).elem_count ≤ n ∧ (Mccl.chunkize n elem_size w i).elem_count ≤ per_chunk n w := by
  have hsucc := Nat.succ_mul i (per_chunk n w)
  simp only [Mccl.chunkize, Nat.succ_eq_add_one] at *
  omega

theorem covers (elem_size : Nat) (hw : 0 < w) (hw' : w < 2 ^ 31) (hsum : n + w < 2 ^ 63)
    (helem : elem_size < 2 ^ 64) (hbytes : n * elem_size < 2 ^ 64) :
    Covers (Int64.ofNat n) (UInt64.ofNat elem_size) (Int32.ofNat w)
      (chunkize (Int64.ofNat n) (UInt64.ofNat elem_size) (Int32.ofNat w)) := by
  have hn : n < 2 ^ 63 := by omega
  rw [chunkize_eq elem_size hw hw' hsum]
  -- what the numbers of a chunk are
  have hstart (i : Nat) : (Int64.ofNat (Mccl.chunkize n elem_size w i).elem_start).toNatClampNeg =
      (Mccl.chunkize n elem_size w i).elem_start :=
    Int64.toNatClampNeg_ofNat_of_lt (Nat.lt_of_le_of_lt (chunk_le n elem_size w i).1 hn)
  have hcount (i : Nat) : (Int64.ofNat (Mccl.chunkize n elem_size w i).elem_count).toNatClampNeg =
      (Mccl.chunkize n elem_size w i).elem_count :=
    Int64.toNatClampNeg_ofNat_of_lt (Nat.lt_of_le_of_lt (chunk_le n elem_size w i).2.1 hn)
  have hmul {k : Nat} (hk : k ≤ n) : (UInt64.ofNat (k * elem_size)).toNat = (UInt64.ofNat elem_size).toNat * k := by
    rw [UInt64.toNat_ofNat_of_lt' helem, Nat.mul_comm elem_size]
    exact UInt64.toNat_ofNat_of_lt' (Nat.lt_of_le_of_lt (Nat.mul_le_mul_right _ hk) hbytes)
  constructor
  case tiles =>
    rw [Int64.toNatClampNeg_ofNat_of_lt hn, List.map_map]
    convert tiles_model elem_size hw using 2
    funext i
    exact Prod.ext (hstart i) (hcount i)
  all_goals
    intro c hc
    obtain ⟨i, -, rfl⟩ := List.mem_map.mp hc
    obtain ⟨hs, hc, hshare⟩ := chunk_le n elem_size w i
  case nonneg => exact ⟨Int64.zero_le_ofNat_of_lt (hs.trans_lt hn), Int64.zero_le_ofNat_of_lt (hc.trans_lt hn)⟩
  case bytes =>
    show _ = _ * (Int64.ofNat _).toNatClampNeg ∧ _ = _ * (Int64.ofNat _).toNatClampNeg
    rw [hstart, hcount]
    exact ⟨hmul hs, hmul hc⟩
  case share =>
    show (Int64.ofNat _).toNatClampNeg ≤ _
    rw [hcount, Int64.toNatClampNeg_ofNat_of_lt hn, Int32.toNatClampNeg_ofNat_of_lt hw']
    exact hshare

/-! ## The Scratch -/

/-- What an algorithm writes to the scratch of `nbytes` bytes is inside of it. -/
def Fits (chunks : List ChunkInfo) (world nbytes : Nat) : AllreduceAlgo → Prop
  -- one chunk at a time
  | .ring => ∀ c ∈ chunks, c.byte_len.toNat ≤ nbytes
  -- the check, and the slots for the peers
  | .butterfly => ∀ c ∈ chunks, (world - 1) * c.byte_len.toNat ≤ nbytes ∧
      ∀ slot < world - 1, slot * c.byte_len.toNat + c.byte_len.toNat ≤ nbytes
  | .tree => True

theorem fits_of_le {chunks : List ChunkInfo} {size : Nat}
    (h : ∀ c ∈ chunks, c.byte_len.toNat ≤ per_chunk n w * size) (alg : AllreduceAlgo) :
    Fits chunks w (scratch_numel n w alg * size) alg := by
  cases alg with
  | ring => exact h
  | tree => trivial
  | butterfly =>
    intro c hc
    have hall : (w - 1) * c.byte_len.toNat ≤ (w - 1) * per_chunk n w * size := by
      rw [Nat.mul_assoc]
      exact Nat.mul_le_mul_left _ (h c hc)
    refine ⟨hall, fun slot hslot => ?_⟩
    calc slot * c.byte_len.toNat + c.byte_len.toNat = (slot + 1) * c.byte_len.toNat := (Nat.succ_mul ..).symm
      _ ≤ (w - 1) * c.byte_len.toNat := Nat.mul_le_mul_right _ hslot
      _ ≤ (w - 1) * per_chunk n w * size := hall

/-- The scratch is sized by the tensor, and the chunks by its number of elements
    modulo 2^32. -/
theorem plan_fits (env : AllreduceEnv) (wt : Tensor) (i : Nat) (hw : 0 < w) (hw' : w < 2 ^ 31) :
    Fits (chunkize (Int64.ofNat (plan env w wt i).args.numel) (UInt64.ofNat (plan env w wt i).args.esize)
      (Int32.ofNat w)) w (plan env w wt i).args.recv_view.nbytes (plan env w wt i).alg := by
  have hnumel : wt.numel % 2 ^ 32 < 2 ^ 32 := Nat.mod_lt _ (by decide)
  have hle : wt.numel % 2 ^ 32 ≤ wt.numel := Nat.mod_le ..
  rw [plan_scratch_nbytes]
  apply fits_of_le
  show ∀ c ∈ chunkize (Int64.ofNat (wt.numel % 2 ^ 32)) (UInt64.ofNat wt.dtype.elementSize) _, _
  rw [chunkize_eq _ hw hw' (by omega)]
  intro c hc
  obtain ⟨j, -, rfl⟩ := List.mem_map.mp hc
  obtain ⟨-, -, hshare⟩ := chunk_le (wt.numel % 2 ^ 32) wt.dtype.elementSize w j
  calc (UInt64.ofNat (Mccl.chunkize (wt.numel % 2 ^ 32) wt.dtype.elementSize w j).byte_len).toNat
      ≤ (Mccl.chunkize (wt.numel % 2 ^ 32) wt.dtype.elementSize w j).byte_len := by
        rw [UInt64.toNat_ofNat']
        exact Nat.mod_le ..
    _ ≤ per_chunk (wt.numel % 2 ^ 32) w * wt.dtype.elementSize := Nat.mul_le_mul_right _ hshare
    _ ≤ per_chunk wt.numel w * wt.dtype.elementSize :=
        Nat.mul_le_mul_right _ (Nat.div_le_div_right (by omega))

/-- **Chunks and scratch**: for all numbers of elements, element sizes and ranks whose
    sums and products are in range, the chunks tile the tensor; and whatever tensor is
    reduced, they fit into the scratch of the algorithm that is chosen. -/
theorem chunks_tile_and_fit {numel : Int64} (elem_size : UInt64) {world : Int32} (hnumel : 0 ≤ numel)
    (hworld : 1 ≤ world) (hsum : numel.toInt + world.toInt < 2 ^ 63) (hbytes : numel.toInt * elem_size.toNat < 2 ^ 64) :
    Covers numel elem_size world (chunkize numel elem_size world) ∧
    ∀ (env : AllreduceEnv) (wt : Tensor) (i : Nat),
      let p := plan env world.toNatClampNeg wt i
      Fits (chunkize (Int64.ofNat p.args.numel) (UInt64.ofNat p.args.esize) world) world.toNatClampNeg
        p.args.recv_view.nbytes p.alg := by
  have hn : (numel.toNatClampNeg : Int) = numel.toInt := by
    rw [← Int64.toNat_toInt]
    exact Int.toNat_of_nonneg (Int64.le_iff_toInt_le.mp hnumel)
  have hpos : 1 ≤ world.toInt := Int32.le_iff_toInt_le.mp hworld
  have hw : (world.toNatClampNeg : Int) = world.toInt := by
    rw [← Int32.toNat_toInt]
    exact Int.toNat_of_nonneg (by omega)
  rw [← hn, ← hw] at hsum
  rw [← hn] at hbytes
  have hworld' : Int32.ofNat world.toNatClampNeg = world :=
    Int32.ofNat_toNatClampNeg world (Int32.le_iff_toInt_le.mpr (by rw [Int32.toInt_zero]; omega))
  have hlt := world.toNatClampNeg_lt
  constructor
  · have hcovers := covers (n := numel.toNatClampNeg) (w := world.toNatClampNeg) elem_size.toNat (by omega) hlt
      (by exact_mod_cast hsum) elem_size.toNat_lt (by exact_mod_cast hbytes)
    rw [Int64.ofNat_toNatClampNeg numel hnumel, hworld', UInt64.ofNat_toNat] at hcovers
    exact hcovers
  · intro env wt i
    have hfits := plan_fits (w := world.toNatClampNeg) env wt i (by omega) hlt
    rw [hworld'] at hfits
    exact hfits

/-- Five elements for three ranks, and an element type of four bytes. -/
theorem chunks_tile_and_fit_five : Covers 5 4 3 (chunkize 5 4 3) ∧
    ∀ (env : AllreduceEnv) (wt : Tensor) (i : Nat),
      let p := plan env (3 : Int32).toNatClampNeg wt i
      Fits (chunkize (Int64.ofNat p.args.numel) (UInt64.ofNat p.args.esize) 3) (3 : Int32).toNatClampNeg
        p.args.recv_view.nbytes p.alg :=
  chunks_tile_and_fit 4 (by decide) (by decide) (by decide) (by decide)

/-- 2^62 elements of eight bytes for two ranks: the chunks have no bytes. -/
theorem chunk_bytes_wrap : chunkize 4611686018427387904 8 2 =
    [⟨0, 2305843009213693952, 0, 0⟩, ⟨2305843009213693952, 2305843009213693952, 0, 0⟩] := by decide

end Mccl.ChunkTable
