/-!
# The 64-bit binary format

What the bits of a 64-bit binary floating-point number stand for, and which number of the format is
nearest to a fraction. A magnitude is the bits without the sign, so magnitudes are ordered as the
numbers are, and the magnitude after the greatest finite number is infinity.

Results:
* `nearest_le_infinity`: rounding never leaves the format.
-/
namespace Worksheet

/-- What 64 bits stand for: `significand * 2 ^ exponent` with a sign, an infinity, or no number. -/
inductive Binary64 where
  | notNumber
  | infinite (negative : Bool)
  | finite (negative : Bool) (significand : Nat) (exponent : Int)
  deriving DecidableEq, Repr

namespace Binary64

/-- The weight of the leading bit of a significand, which the bits leave out. -/
def leadingBit : Nat := Nat.pow 2 52

/-- The exponent of the numbers nearest to zero. -/
def leastExponent : Int := -1074

/-- The exponent field of infinities and of what is no number. -/
def lastField : Nat := 2047

def signBit : Nat := Nat.pow 2 63

def infinity : Nat := lastField * leadingBit

/-! ## Decoding -/

def ofMagnitude (negative : Bool) (magnitude : Nat) : Binary64 :=
  let field := magnitude / leadingBit
  let fraction := magnitude % leadingBit
  if field = lastField then
    if fraction = 0 then .infinite negative else .notNumber
  else if field = 0 then .finite negative fraction leastExponent
  else .finite negative (leadingBit + fraction) (leastExponent + (field - 1))

def ofFloat (x : Float) : Binary64 :=
  let bits := x.toBits.toNat
  ofMagnitude (decide (signBit ≤ bits)) (bits % signBit)

/-! ## Rounding -/

/-- The whole number nearest to `num / den`; half way between two it is the even one. -/
def roundEven (num den : Nat) : Nat :=
  let quotient := num / den
  let rest := num % den
  if 2 * rest < den ∨ 2 * rest = den ∧ quotient % 2 = 0 then quotient else quotient + 1

/-- The greatest `e` with `2 ^ e ≤ num / den`. -/
def log2Floor (num den : Nat) : Int :=
  let e : Int := num.log2 - den.log2
  if den * Nat.pow 2 e.toNat ≤ num * Nat.pow 2 (-e).toNat then e else e - 1

/-- The magnitude of the number of the format nearest to `num / den`. The exponent is the one that
gives a significand of 53 bits, but not less than the least; a significand that rounds up to 54 bits
carries into the exponent field. -/
def nearest (num den : Nat) : Nat :=
  if num = 0 then 0
  else
    let exponent := max (log2Floor num den - 52) leastExponent
    let significand :=
      roundEven (num * Nat.pow 2 (-exponent).toNat) (den * Nat.pow 2 exponent.toNat)
    min ((exponent - leastExponent).toNat * leadingBit + significand) infinity

theorem nearest_le_infinity (num den : Nat) : nearest num den ≤ infinity := by
  unfold nearest
  split
  · exact Nat.zero_le _
  · exact Nat.min_le_right _ _

end Binary64

end Worksheet
