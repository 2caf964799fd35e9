import Mccl.Backend.Blocks

/-! # Bounds of the Blocks of `alltoall_base`

    The blocks that `alltoall_base` cuts its tensors into, with the offsets
    modulo `2 ^ 64` as the code computes them, and when they are inside the
    buffers. The equal blocks of a tensor always are. Blocks that the caller
    chooses are checked for their number only, so it is up to the caller that
    they are (`Fits`). -/

namespace Mccl

open ForkJoin Arrays

variable {D : Device UInt8}

/-! ## Blocks -/

/-- What a rank exchanges with one peer: a range of the input and a range of
    `dst_buf`, as offsets and lengths in bytes. -/
structure Block where
  in_off : Nat
  slen : Nat
  out_off : Nat
  rlen : Nat
  deriving DecidableEq, Repr

def alltoall_block (world : Nat) (output input : Tensor)
    (output_split_sizes input_split_sizes : List Int) (p : Nat) : Block where
  in_off := offsets (block_len input input_split_sizes world) p
  slen := block_size (offsets (block_len input input_split_sizes world)) p
  out_off := offsets (block_len output output_split_sizes world) p
  rlen := block_size (offsets (block_len output output_split_sizes world)) p

/-- Every byte of the block is a byte of the input or of `dst_buf`. -/
def Block.Inside (b : Block) (in_bytes out_bytes : Nat) : Prop :=
  (∀ j < b.slen, b.in_off + j < in_bytes) ∧ ∀ j < b.rlen, b.out_off + j < out_bytes

/-- What `check_blocks` checks. -/
def BlocksChecked (t : Tensor) (splits : List Int) (world : Nat) : Prop :=
  (splits = [] ∧ t.numel / world * t.element_size * world = t.nbytes) ∨
    (splits ≠ [] ∧ splits.length = world)

/-- What `alltoall_base` checks before it copies, sends and receives. -/
structure AlltoallChecked (rank world : Nat) (output input : Tensor)
    (output_split_sizes input_split_sizes : List Int) : Prop where
  element_size : input.element_size = output.element_size
  in_blocks : BlocksChecked input input_split_sizes world
  out_blocks : BlocksChecked output output_split_sizes world
  self : (alltoall_block world output input output_split_sizes input_split_sizes rank).slen =
    (alltoall_block world output input output_split_sizes input_split_sizes rank).rlen

theorem check_blocks_iff (t : Tensor) (splits : List Int) (world : Nat) (which : String) :
    (check_blocks t splits world which : RankProg D Unit) = .ret () ↔ BlocksChecked t splits world := by
  unfold check_blocks BlocksChecked Proc.check
  cases splits with
  | nil => simp
  | cons x xs => simp

/-- The blocks are all that `alltoall_base` touches of its buffers, apart
    from staging the input and filling the output. -/
theorem alltoall_base_body_eq {rank world : Nat} {output input : Tensor} {osplits isplits : List Int}
    (h : AlltoallChecked rank world output input osplits isplits) :
    (alltoall_base_body rank world output input osplits isplits : RankProg D Unit) = (do
      check_mps_ input "alltoall_base"
      check_mps_ output "alltoall_base"
      let sb ← stage_for_send_nosync input
      vector 0 output.nbytes
      let b := alltoall_block world output input osplits isplits
      memcpy (off (heap 0) (b rank).out_off) (off sb.data (b rank).in_off) (b rank).slen
      .fork ((peers rank world).filterMap fun p => alltoall_thread p (off sb.data (b p).in_off)
        (off (heap 0) (b p).out_off) (b p).slen (b p).rlen)
      unstage_from_recv output (heap 0) output.nbytes) := by
  have hself := h.self
  unfold alltoall_block at hself
  simp only [alltoall_base_body, Proc.check_pos h.element_size, (check_blocks_iff _ _ _ _).mpr h.in_blocks,
    (check_blocks_iff _ _ _ _).mpr h.out_blocks, Proc.check_pos hself, Proc.ret_bind, alltoall_block]

/-! ## Offsets -/

section offsets

variable {len : Nat → Int}

theorem size_t_lt (x : Int) : size_t x < 2 ^ 64 := by
  unfold size_t
  omega

/-- The length of a block does not depend on where it starts. -/
theorem block_size_offsets (len : Nat → Int) (p : Nat) :
    block_size (offsets len) p = size_t (len p) := by
  have hlt : offsets len p < 2 ^ 64 := by
    cases p with
    | zero => exact Nat.two_pow_pos 64
    | succ p => exact size_t_lt _
  unfold block_size
  rw [offsets]
  unfold size_t
  omega

/-- As long as the blocks fit into less than `2 ^ 64` bytes, nothing wraps. -/
theorem offsets_eq_blockStart {p : Nat} (h : blockStart (fun q => size_t (len q)) p < 2 ^ 64) :
    offsets len p = blockStart (fun q => size_t (len q)) p := by
  induction p with
  | zero => rfl
  | succ p ih =>
    rw [blockStart] at h ⊢
    rw [offsets, ih (by omega)]
    unfold size_t at *
    omega

/-- **Bounds**: blocks are inside `n` bytes exactly if their lengths add up
    to at most `n`. -/
theorem blocks_inside_iff {n : Nat} (hn : n < 2 ^ 64) (w : Nat) :
    (∀ p < w, ∀ j < block_size (offsets len) p, offsets len p + j < n) ↔
      blockStart (fun q => size_t (len q)) w ≤ n := by
  constructor
  · intro h
    induction w with
    | zero => exact Nat.zero_le n
    | succ w ih =>
      have hle := ih fun p hp => h p (by omega)
      have hlast := h w (by omega)
      rw [block_size_offsets, offsets_eq_blockStart (by omega)] at hlast
      rw [blockStart]
      -- an empty block has no last byte
      cases hsize : size_t (len w) with
      | zero => exact hle
      | succ k =>
        have := hlast k (by omega)
        omega
  · intro h p hp j hj
    have hend := (blockStart_add_le (fun q => size_t (len q)) hp).trans h
    rw [block_size_offsets] at hj
    rw [offsets_eq_blockStart (by omega)]
    omega

end offsets

/-! ## Split sizes -/

/-- The blocks of a tensor are the equal ones, or their lengths in bytes,
    modulo `2 ^ 64`, add up to no more than the tensor has. -/
def Fits (world : Nat) (t : Tensor) (splits : List Int) : Prop :=
  splits = [] ∨ blockStart (fun p => size_t (splits.getD p 0 * t.element_size)) world ≤ t.nbytes

variable {world : Nat} {t : Tensor} {splits : List Int}

theorem blockStart_const (k w : Nat) : blockStart (fun _ => k) w = w * k := by
  induction w with
  | zero => simp [blockStart]
  | succ w ih => rw [blockStart, ih, Nat.succ_mul]

theorem fits_iff (ht : t.nbytes < 2 ^ 64) (hw : 0 < world) (h : BlocksChecked t splits world) :
    blockStart (fun p => size_t (block_len t splits world p)) world ≤ t.nbytes ↔
      Fits world t splits := by
  unfold Fits
  rcases h with ⟨rfl, heven⟩ | ⟨hne, -⟩
  · -- equal blocks add up to the tensor
    have hlen : (fun p => size_t (block_len t [] world p)) =
        fun _ => t.numel / world * t.element_size := by
      funext p
      have hle : t.numel / world * t.element_size ≤ t.nbytes := by
        rw [← heven]
        exact Nat.le_mul_of_pos_right _ hw
      exact size_t_natCast (lt_of_le_of_lt hle ht)
    rw [hlen, blockStart_const, Nat.mul_comm]
    simp [heven]
  · have hlen : (fun p => size_t (block_len t splits world p)) =
        fun p => size_t (splits.getD p 0 * t.element_size) := by
      funext p
      simp [block_len, hne]
    rw [hlen]
    simp [hne]

/-- **`alltoall_base` stays inside its buffers** exactly if the blocks fit:
    nothing that it checks says so for split sizes of the caller. -/
theorem alltoall_base_inside_iff {rank world : Nat} {output input : Tensor} {osplits isplits : List Int}
    (hrank : rank < world) (hin : input.nbytes < 2 ^ 64) (hout : output.nbytes < 2 ^ 64)
    (h : AlltoallChecked rank world output input osplits isplits) :
    (∀ p < world, (alltoall_block world output input osplits isplits p).Inside input.nbytes
        output.nbytes) ↔
      Fits world input isplits ∧ Fits world output osplits := by
  have hw : 0 < world := by omega
  rw [← fits_iff hin hw h.in_blocks, ← fits_iff hout hw h.out_blocks, ← blocks_inside_iff hin,
    ← blocks_inside_iff hout]
  constructor
  · intro hall
    exact ⟨fun p hp => (hall p hp).1, fun p hp => (hall p hp).2⟩
  · intro hboth p hp
    exact ⟨hboth.1 p hp, hboth.2 p hp⟩

/-- Four floats in a storage of their own. -/
def fourFloats (id : Nat) : Tensor := ⟨.MPS, .Float, [4], true, .mtl id, 0, true⟩

theorem alltoall_base_inside_uneven :
    (alltoall_block 2 (fourFloats 1) (fourFloats 0) [1, 3] [1, 3] 0).Inside 16 16 ∧
      (alltoall_block 2 (fourFloats 1) (fourFloats 0) [1, 3] [1, 3] 1).Inside 16 16 := by
  have hchecked : AlltoallChecked 0 2 (fourFloats 1) (fourFloats 0) [1, 3] [1, 3] :=
    ⟨rfl, .inr (by decide), .inr (by decide), rfl⟩
  have hinside := (alltoall_base_inside_iff (by decide) (by decide) (by decide) hchecked).mpr
    ⟨.inr (by decide), .inr (by decide)⟩
  exact ⟨hinside 0 (by decide), hinside 1 (by decide)⟩

/-- A split size larger than the tensor passes every check, and the block for
    rank 1 goes past the end of the input. -/
theorem alltoall_base_reads_outside :
    AlltoallChecked 0 2 (fourFloats 1) (fourFloats 0) [1, 3] [1, 100] ∧
      alltoall_block 2 (fourFloats 1) (fourFloats 0) [1, 3] [1, 100] 1 = ⟨4, 400, 4, 12⟩ ∧
      ¬(alltoall_block 2 (fourFloats 1) (fourFloats 0) [1, 3] [1, 100] 1).Inside
        (fourFloats 0).nbytes (fourFloats 1).nbytes := by
  have hblock : alltoall_block 2 (fourFloats 1) (fourFloats 0) [1, 3] [1, 100] 1 = ⟨4, 400, 4, 12⟩ := by
    decide
  refine ⟨⟨rfl, .inr (by decide), .inr (by decide), rfl⟩, hblock, ?_⟩
  rw [hblock]
  intro hinside
  -- byte 16 of 16
  have hbyte := hinside.1 12 (by decide)
  exact absurd hbyte (by decide)

end Mccl
