import Mathlib.Algebra.Ring.Nat
import Mathlib.Data.Nat.Log

/-! # Rounding to Nearest, and Binary Formats

    Integer arithmetic on the numbers of a binary floating-point format.

    * `roundEven n d`: the integer nearest to `n / d`, ties to even. It is what
      truncation gives exactly in the lower half (`div_eq_roundEven_iff`).
    * `BinaryFormat`: a positive fraction `n / d` of at most one, rounded to a format
      (`round`) and as the bit pattern of the result (`encode`). -/

namespace Rounding

/-! ## Integers -/

/-- The integer nearest to `n / d`, the even one if there are two. -/
def roundEven (n d : Nat) : Nat :=
  if 2 * (n % d) < d ∨ 2 * (n % d) = d ∧ n / d % 2 = 0 then n / d else n / d + 1

variable {n d : Nat}

/-- **Truncation and rounding** agree below the midpoint, and at it next to an even
    integer. -/
theorem div_eq_roundEven_iff :
    n / d = roundEven n d ↔ 2 * (n % d) < d ∨ 2 * (n % d) = d ∧ n / d % 2 = 0 := by
  unfold roundEven
  split
  case isTrue h => exact iff_of_true rfl h
  case isFalse h => exact iff_of_false (Nat.ne_of_lt (Nat.lt_succ_self _)) h

theorem div_le_roundEven : n / d ≤ roundEven n d := by
  unfold roundEven
  split <;> omega

theorem roundEven_le_succ : roundEven n d ≤ n / d + 1 := by
  unfold roundEven
  split <;> omega

/-! ## Formats -/

/-- The precision counts the leading bit. -/
structure BinaryFormat where
  precision : Nat
  bias : Nat

def binary64 : BinaryFormat := ⟨53, 1023⟩

def binary32 : BinaryFormat := ⟨24, 127⟩

def binary16 : BinaryFormat := ⟨11, 15⟩

namespace BinaryFormat

variable (F : BinaryFormat) (n d : Nat)

/-- The least `k` with `1 / 2 ^ k ≤ n / d`, or the one of the subnormal numbers. -/
def scale : Nat := min (Nat.clog 2 ((d + n - 1) / n)) (F.bias - 1)

/-- `n / d` in units of the last place. -/
def significand : Nat := roundEven (n * 2 ^ (F.scale n d + (F.precision - 1))) d

/-- `n / d` rounded to the format, as a fraction. -/
def round : Nat × Nat := (F.significand n d, 2 ^ (F.scale n d + (F.precision - 1)))

/-- The bit pattern. The leading bit of the significand, or a carry out of it, counts
    for the exponent. -/
def encode : Nat := (F.bias - 1 - F.scale n d) * 2 ^ (F.precision - 1) + F.significand n d

variable {F n d}

end BinaryFormat

end Rounding
