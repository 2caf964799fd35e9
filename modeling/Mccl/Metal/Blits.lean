import Mccl.Metal.StagingPool

/-! # Blits to and from Staging

    `chunked_blit_to_staging`, its mirror `chunked_blit_from_staging` and
    `ensure_shared_storage` (`metal/MPSInterop.mm`). Both blits have a fast path, one
    command over the Metal buffer of the staging pool, and go by chunks otherwise.
    Addresses and offsets are 64 bits, also in what they select of a buffer.

    * `blitChunks_copies`: chunk by chunk or at once, the same bytes are copied.
    * `from_staging_copies`: the mirror takes the fast path only for the bytes of the
      pool, and copies from the address it is given.
    * `staging_round_trip`: what goes through the pool comes back as it was.
    * `to_staging_reaches_iff`: the blit to staging does not ask where it is to go. It
      fills its destination exactly if that is the pool's, or the fast path is not
      taken, or there is nothing to copy. -/

namespace Mccl.Staging

/-! ## Copying -/

/-- Bytes by address, or by offset in a Metal buffer. -/
abbrev Bytes := UInt64 → UInt8

/-- `dst` with `n` bytes from `d` on replaced by those of `src` from `s` on. -/
def copied (src : Bytes) (s : UInt64) (dst : Bytes) (d n : UInt64) : Bytes := fun a =>
  if a - d < n then src (s + (a - d)) else dst a

section Copying

variable {src dst : Bytes} {s d n m : UInt64}

theorem copied_at {i : UInt64} (hi : i < n) : copied src s dst d n (d + i) = src (s + i) := by
  have hoffset : d + i - d = i := by grind
  rw [copied, hoffset, if_pos hi]

theorem copied_frame {a : UInt64} (h : ¬a - d < n) : copied src s dst d n a = dst a := if_neg h

theorem copied_zero : copied src s dst d 0 = dst := funext fun _ => copied_frame UInt64.not_lt_zero

/-- Two chunks, one after the other, are one. -/
theorem copied_copied (h : n.toNat + m.toNat < 2 ^ 64) :
    copied src (s + n) (copied src s dst d n) (d + n) m = copied src s dst d (n + m) := by
  have hsum : (n + m).toNat = n.toNat + m.toNat := by
    rw [UInt64.toNat_add, Nat.mod_eq_of_lt h]
  funext a
  have hoffset : a - (d + n) = a - d - n := by grind
  unfold copied
  rw [hoffset]
  generalize a - d = i
  have hlt := i.toNat_lt
  by_cases hi : i < n
  · -- the difference wraps, beyond the second chunk
    rw [UInt64.lt_iff_toNat_lt] at hi
    have hsecond : ¬i - n < m := by
      rw [UInt64.lt_iff_toNat_lt, UInt64.toNat_sub]
      omega
    have hboth : i < n + m := by
      rw [UInt64.lt_iff_toNat_lt]
      omega
    rw [if_neg hsecond, if_pos (UInt64.lt_iff_toNat_lt.mpr hi), if_pos hboth]
  · have hle := UInt64.not_lt.mp hi
    have hback : s + n + (i - n) = s + i := by grind
    have hsecond : i - n < m ↔ i < n + m := by
      rw [UInt64.lt_iff_toNat_lt, UInt64.lt_iff_toNat_lt, UInt64.toNat_sub_of_le _ _ hle, hsum]
      rw [UInt64.le_iff_toNat_le] at hle
      omega
    simp only [hback, hsecond, if_neg hi]

/-- A copy to another address misses a byte. -/
theorem exists_missed (hne : d ≠ m) (hn : n ≠ 0) : ∃ i < n, ¬d + i - m < n := by
  have hoffset (i : UInt64) : d + i - m = d - m + i := by grind
  have hpos : 0 < d - m := UInt64.pos_iff_ne_zero.mpr (by grind)
  simp only [hoffset]
  generalize d - m = gap at hpos
  by_cases h : gap < n
  · -- the byte that the end of the copy falls on
    refine ⟨n - gap, ?_, ?_⟩
    · rw [UInt64.lt_iff_toNat_lt, UInt64.toNat_sub_of_le _ _ (UInt64.le_of_lt h)]
      rw [UInt64.lt_iff_toNat_lt] at h hpos
      exact Nat.sub_lt (Nat.lt_of_le_of_lt (Nat.zero_le _) h) hpos
    · rw [UInt64.add_comm, UInt64.sub_add_cancel]
      exact UInt64.lt_irrefl n
  · refine ⟨0, UInt64.pos_iff_ne_zero.mpr hn, ?_⟩
    rwa [UInt64.add_zero]

end Copying

/-! ## The Blits -/

structure MTLDevice where
  maxBufferLength : UInt64
  page_le : PAGE ≤ maxBufferLength

/-- What Metal answers during one call, for the chunk at each offset. -/
structure BlitAnswers where
  /-- Whether `newBufferWithBytesNoCopy` returns a buffer. -/
  wrapped : UInt64 → Bool
  /-- Whether the command buffer ends without an error. -/
  completed : UInt64 → Bool

def BlitAnswers.granted : BlitAnswers := ⟨fun _ => true, fun _ => true⟩

/-- The address in a `void*`. -/
def address : Option Block → UInt64
  | none => 0
  | some b => UInt64.ofNat b.base

def check_command_buffer (completed : Bool) (context : String) : Except String Unit :=
  if completed then .ok () else .error (context ++ ": Metal command buffer failed")

theorem chunk_spec {max_chunk offset nbytes : UInt64} (hmax : PAGE ≤ max_chunk) (h : offset < nbytes) :
    0 < (min max_chunk (nbytes - offset)).toNat ∧
    offset.toNat + (min max_chunk (nbytes - offset)).toNat ≤ nbytes.toNat := by
  have hsub := UInt64.toNat_sub_of_le _ _ (UInt64.le_of_lt h)
  rw [UInt64.lt_iff_toNat_lt] at h
  rw [UInt64.le_iff_toNat_le, toNat_page] at hmax
  rcases Std.min_eq_or (a := max_chunk) (b := nbytes - offset) with hmin | hmin
  · have hle : max_chunk ≤ nbytes - offset := hmin ▸ Std.min_le_right
    rw [UInt64.le_iff_toNat_le] at hle
    rw [hmin]
    omega
  · rw [hmin]
    omega

section Blits

variable (dev : MTLDevice) (answers : BlitAnswers)

/-- The loop of both blits. The Metal buffer of a chunk is around the host bytes, so
    the offset on that side is 0. -/
def blitChunks (wrapFailed : UInt64 → UInt64 → String) (context : String) (src : Bytes) (src_at dst_at nbytes : UInt64)
    (offset : UInt64) (dst : Bytes) : Except String Bytes :=
  if _h : offset < nbytes then
    let chunk := min dev.maxBufferLength (nbytes - offset)
    let aligned_chunk := roundUp chunk
    if answers.wrapped offset then do
      check_command_buffer (answers.completed offset) context
      blitChunks wrapFailed context src src_at dst_at nbytes (offset + chunk)
        (copied src (src_at + offset) dst (dst_at + offset) chunk)
    else .error (wrapFailed offset aligned_chunk)
  else .ok dst
termination_by nbytes.toNat - offset.toNat
decreasing_by
  obtain ⟨hpos, hle⟩ := chunk_spec dev.page_le _h
  have hlt := nbytes.toNat_lt
  rw [UInt64.toNat_add]
  omega

variable (pool : Pool)

/-- The fast path goes to the Metal buffer of the pool, whatever `dst` is. -/
def chunked_blit_to_staging (src_buf : Bytes) (src_offset dst nbytes : UInt64) (mem : Bytes) : Except String Bytes :=
  if pool.mtl_wrapper.isSome ∧ nbytes ≤ pool.capacity then do
    check_command_buffer (answers.completed 0) "chunked_blit_to_staging(fast)"
    return copied src_buf src_offset mem (address pool.ptr) nbytes
  else
    blitChunks dev answers
      (fun offset aligned_chunk => "chunked_blit_to_staging: MTLBuffer wrap failed at offset " ++ toString offset ++
        " chunk=" ++ toString aligned_chunk)
      "chunked_blit_to_staging(chunk)" src_buf src_offset dst nbytes 0 mem

/-- The Metal buffer that is left. -/
def chunked_blit_from_staging (mem : Bytes) (src nbytes : UInt64) (dst_buf : Bytes) (dst_offset : UInt64) :
    Except String Bytes :=
  if src = address pool.ptr ∧ pool.mtl_wrapper.isSome ∧ nbytes ≤ pool.capacity then do
    check_command_buffer (answers.completed 0) "chunked_blit_from_staging(fast)"
    return copied mem (address pool.ptr) dst_buf dst_offset nbytes
  else
    blitChunks dev answers
      (fun offset _ => "chunked_blit_from_staging: MTLBuffer wrap failed at offset " ++ toString offset)
      "chunked_blit_from_staging(chunk)" mem src dst_offset nbytes 0 dst_buf

/-- A tensor that the CPU can access is returned as it is (no block), any other as a
    CPU tensor over a new block. -/
def ensure_shared_storage (posix_memalign : Option Nat) (t : Tensor) (src_buf mem : Bytes) :
    Except String (Option Block × Bytes) :=
  if t.is_cpu || t.shared then .ok (none, mem)
  else
    let nbytes := UInt64.ofNat t.numel * UInt64.ofNat t.element_size
    let src_offset := UInt64.ofNat t.storage_offset * UInt64.ofNat t.element_size
    let alloc_size := roundUp nbytes
    match posix_memalign with
    | none => .error ("ensure_shared_storage: posix_memalign failed for " ++ toString alloc_size ++ " bytes")
    | some base => do
      let mem ← chunked_blit_to_staging dev answers pool src_buf src_offset (address (some ⟨base, alloc_size⟩)) nbytes mem
      return (some ⟨base, alloc_size⟩, mem)

end Blits

/-! ## What They Copy -/

section Copies

variable {dev : MTLDevice} {answers : BlitAnswers} {pool : Pool} {src dst : Bytes} {src_at dst_at nbytes : UInt64}

theorem check_ok {completed : Bool} {context : String} {α : Type} {k : Except String α} {a : α}
    (h : (check_command_buffer completed context >>= fun _ => k) = .ok a) : k = .ok a := by
  unfold check_command_buffer at h
  split at h
  · exact h
  · cases h

variable {result : Bytes}

/-- The chunks that are left complete those that have been copied. -/
theorem blitChunks_from {wrapFailed : UInt64 → UInt64 → String} {context : String} (offset : UInt64)
    (hoffset : offset ≤ nbytes)
    (h : blitChunks dev answers wrapFailed context src src_at dst_at nbytes offset
      (copied src src_at dst dst_at offset) = .ok result) :
    result = copied src src_at dst dst_at nbytes := by
  rw [blitChunks] at h
  by_cases hlt : offset < nbytes
  · obtain ⟨hpos, hle⟩ := chunk_spec dev.page_le hlt
    have hbound := nbytes.toNat_lt
    rw [dif_pos hlt] at h
    dsimp only at h
    split at h
    · have hstep := check_ok h
      generalize min dev.maxBufferLength (nbytes - offset) = chunk at hpos hle hstep
      have hsum : (offset + chunk).toNat = offset.toNat + chunk.toNat := by
        rw [UInt64.toNat_add, Nat.mod_eq_of_lt (by omega)]
      rw [copied_copied (by omega)] at hstep
      exact blitChunks_from (offset + chunk) (UInt64.le_iff_toNat_le.mpr (hsum ▸ hle)) hstep
    · cases h
  · rw [dif_neg hlt] at h
    cases h
    rw [UInt64.le_antisymm hoffset (UInt64.not_lt.mp hlt)]
termination_by nbytes.toNat - offset.toNat

/-- **Chunk by chunk or at once**: if the loop returns, everything has been copied. -/
theorem blitChunks_copies {wrapFailed : UInt64 → UInt64 → String} {context : String}
    (h : blitChunks dev answers wrapFailed context src src_at dst_at nbytes 0 dst = .ok result) :
    result = copied src src_at dst dst_at nbytes := by
  rw [← (copied_zero : copied src src_at dst dst_at 0 = dst)] at h
  exact blitChunks_from 0 UInt64.zero_le h

theorem blitChunks_returns (wrapFailed : UInt64 → UInt64 → String) (context : String) (offset : UInt64) (dst : Bytes) :
    ∃ result, blitChunks dev .granted wrapFailed context src src_at dst_at nbytes offset dst = .ok result := by
  fun_induction blitChunks dev .granted wrapFailed context src src_at dst_at nbytes offset dst with
  | case1 offset dst h chunk hwrapped ih => exact ih
  | case2 offset dst h chunk aligned_chunk hwrapped => exact absurd rfl hwrapped
  | case3 offset dst h => exact ⟨dst, rfl⟩

/-- **The mirror is right**: the Metal buffer gets the bytes from the address that was
    given, on both paths. -/
theorem from_staging_copies
    (h : chunked_blit_from_staging dev answers pool src src_at nbytes dst dst_at = .ok result) :
    result = copied src src_at dst dst_at nbytes := by
  unfold chunked_blit_from_staging at h
  split at h
  · rename_i hfast
    cases check_ok h
    rw [hfast.1]
  · exact blitChunks_copies h

/-- Where the bytes go. -/
def Pool.target (pool : Pool) (nbytes dst : UInt64) : UInt64 :=
  if pool.mtl_wrapper.isSome ∧ nbytes ≤ pool.capacity then address pool.ptr else dst

theorem to_staging_copies
    (h : chunked_blit_to_staging dev answers pool src src_at dst_at nbytes dst = .ok result) :
    result = copied src src_at dst (pool.target nbytes dst_at) nbytes := by
  unfold chunked_blit_to_staging at h
  unfold Pool.target
  split at h
  · rename_i hfast
    cases check_ok h
    rw [if_pos hfast]
  · rename_i hslow
    rw [if_neg hslow]
    exact blitChunks_copies h

theorem to_staging_returns (dev : MTLDevice) (pool : Pool) (src : Bytes) (src_at dst_at nbytes : UInt64) (dst : Bytes) :
    ∃ result, chunked_blit_to_staging dev .granted pool src src_at dst_at nbytes dst = .ok result := by
  unfold chunked_blit_to_staging
  split
  · exact ⟨_, rfl⟩
  · exact blitChunks_returns ..

/-- **Through the pool and back**: by whichever paths, the bytes that were staged are
    unstaged. If Metal grants every request, both blits return. -/
theorem staging_round_trip (dev : MTLDevice) (pool : Pool) (src mem dst : Bytes) (src_at dst_at nbytes : UInt64) :
    (∃ staged result,
      chunked_blit_to_staging dev .granted pool src src_at (address pool.ptr) nbytes mem = .ok staged ∧
      chunked_blit_from_staging dev .granted pool staged (address pool.ptr) nbytes dst dst_at = .ok result) ∧
    ∀ there back staged result,
      chunked_blit_to_staging dev there pool src src_at (address pool.ptr) nbytes mem = .ok staged →
      chunked_blit_from_staging dev back pool staged (address pool.ptr) nbytes dst dst_at = .ok result →
      result = copied src src_at dst dst_at nbytes := by
  constructor
  · obtain ⟨staged, hstaged⟩ := to_staging_returns dev pool src src_at (address pool.ptr) nbytes mem
    refine ⟨staged, exists_and_left.mpr ⟨hstaged, ?_⟩⟩
    unfold chunked_blit_from_staging
    split
    · exact ⟨_, rfl⟩
    · exact blitChunks_returns ..
  · intro there back staged result hstaged hresult
    rw [from_staging_copies hresult, to_staging_copies hstaged, Pool.target, ite_self]
    -- what is read from the pool is what was put there
    funext a
    unfold copied
    split
    · have hoffset : address pool.ptr + (a - dst_at) - address pool.ptr = a - dst_at := by grind
      rw [hoffset, if_pos ‹_›]
    · rfl

end Copies

/-! ## Reaching the Destination -/

/-- The first `nbytes` bytes at `dst` are those of the source from `src_offset` on. -/
def Reached (src : Bytes) (src_offset : UInt64) (mem : Bytes) (dst nbytes : UInt64) : Prop :=
  ∀ i < nbytes, mem (dst + i) = src (src_offset + i)

/-- Contents for which every byte counts: zeros in memory, ones in the source. -/
theorem target_eq_of_reached {target dst nbytes src_offset : UInt64}
    (h : Reached (fun _ => 1) src_offset (copied (fun _ => 1) src_offset (fun _ => 0) target nbytes) dst nbytes) :
    dst = target ∨ nbytes = 0 := by
  by_contra hnot
  obtain ⟨hne, hn⟩ := not_or.mp hnot
  obtain ⟨i, hi, hmissed⟩ := exists_missed hne hn
  have hbyte := h i hi
  rw [copied_frame hmissed] at hbyte
  cases hbyte

/-- **The blit to staging reaches its destination** if and only if it takes the fast
    path for the buffer of the pool alone, or has nothing to copy. If Metal grants
    everything, it returns. -/
theorem to_staging_reaches_iff (dev : MTLDevice) (pool : Pool) (src_offset dst nbytes : UInt64) :
    (∀ src mem, ∃ result,
      chunked_blit_to_staging dev .granted pool src src_offset dst nbytes mem = .ok result) ∧
    ((∀ answers src mem result,
      chunked_blit_to_staging dev answers pool src src_offset dst nbytes mem = .ok result →
      Reached src src_offset result dst nbytes) ↔
    (pool.mtl_wrapper.isSome → nbytes ≤ pool.capacity → dst = address pool.ptr ∨ nbytes = 0)) := by
  refine ⟨fun src mem => to_staging_returns dev pool src src_offset dst nbytes mem, ?_, ?_⟩
  · intro hreached hwrapped hle
    obtain ⟨result, hok⟩ := to_staging_returns dev pool (fun _ => 1) src_offset dst nbytes fun _ => 0
    have hall := hreached .granted _ _ _ hok
    rw [to_staging_copies hok, Pool.target, if_pos ⟨hwrapped, hle⟩] at hall
    exact target_eq_of_reached hall
  · intro hpool answers src mem result hok i hi
    have htarget : pool.target nbytes dst = dst := by
      unfold Pool.target
      split
      · rename_i hfast
        -- there is a byte to copy
        have hn : nbytes ≠ 0 := UInt64.pos_iff_ne_zero.mp (UInt64.lt_of_le_of_lt UInt64.zero_le hi)
        exact ((hpool hfast.1 hfast.2).resolve_right hn).symm
      · rfl
    rw [to_staging_copies hok, htarget, copied_at hi]

/-- One collective has staged a page. A private tensor is then made accessible: its
    bytes go to the staging buffer, and the new block stays as it was. -/
theorem shared_storage_not_filled :
    let dev : MTLDevice := ⟨PAGE, UInt64.le_refl PAGE⟩
    let pool := (history PAGE [⟨16384, ⟨some 65536, true⟩⟩]).pool
    let tensor : Tensor := ⟨.MPS, .Float, [1], true, .mtl 0, 0, false⟩
    ∃ result, ensure_shared_storage dev .granted pool (some 131072) tensor (fun _ => 1) (fun _ => 0) =
      .ok (some ⟨131072, 16384⟩, result) ∧
    result 131072 = 0 ∧ result 65536 = 1 :=
  ⟨_, rfl, rfl, rfl⟩

end Mccl.Staging
