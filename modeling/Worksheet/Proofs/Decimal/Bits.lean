import Worksheet.Formula.Text

/-!
# Numbers made from magnitudes

A number is made from bits by unpacking them to a sign, a significand and an exponent, which are
packed again. The bits of a finite magnitude come back unchanged, as only the bits of what is no
number are changed on this way. So the number of a magnitude is what its magnitude stands for, and
it is not infinite.

Results:
* `unpacked_word`, `Unpacked.toNat_pack`: what a finite magnitude is unpacked to, and that it is
  packed again as the same magnitude.
* `toBits_number`: the number of a finite magnitude has the bits of that magnitude.
* `ofFloat_number`: what the number of a finite magnitude stands for.
* `number_beq_infinity`: the number of a finite magnitude is not infinity.
-/
namespace Worksheet.Binary64

open Float.Model Format UnpackedFloat

variable {m : Nat} {u : UnpackedFloat}

def number (m : Nat) : Float := Float.ofBits (UInt64.ofNat m)

abbrev word (m : Nat) : BitVec binary64.numBits := (UInt64.ofNat m).toBitVec

theorem toNat_word (h : m < infinity) : (word m).toNat = m := by
  have : m < 2 ^ 64 := Nat.lt_trans h (by decide)
  rw [UInt64.toNat_toBitVec, UInt64.toNat_ofNat', Nat.mod_eq_of_lt this]

/-! ## Fields -/

/-- As a numeral, since `omega` does not divide by a definition. -/
theorem leadingBit_eq : leadingBit = 4503599627370496 := rfl

theorem infinity_eq : infinity = 2047 * 4503599627370496 := rfl

theorem exponent_word (h : m < infinity) : (unpackExponent (word m)).toNat = m / leadingBit := by
  have := infinity_eq
  change ((word m).extractLsb 62 52).toNat = m / leadingBit
  rw [BitVec.extractLsb_toNat, toNat_word h, Nat.shiftRight_eq_div_pow, leadingBit_eq]
  omega

theorem mantissa_word (h : m < infinity) : (unpackMantissa (word m)).toNat = m % leadingBit := by
  change ((word m).extractLsb 51 0).toNat = m % leadingBit
  rw [BitVec.extractLsb_toNat, toNat_word h, Nat.shiftRight_zero, leadingBit_eq]

theorem sign_word (h : m < infinity) : Sign.ofBitVec (unpackSign (word m)) = .positive := by
  have := infinity_eq
  have clear : unpackSign (word m) = 0#1 := by
    refine BitVec.eq_of_toNat_eq ?_
    change ((word m).extractLsb 63 63).toNat = 0
    rw [BitVec.extractLsb_toNat, toNat_word h, Nat.shiftRight_eq_div_pow]
    omega
  rw [clear]
  rfl

theorem toNat_append {v : Nat} (high : BitVec v) (low : BitVec 52) :
    (high ++ low).toNat = high.toNat * leadingBit + low.toNat := by
  rw [BitVec.toNat_append, ← Nat.shiftLeft_add_eq_or_of_lt low.isLt, Nat.shiftLeft_eq,
    leadingBit_eq]

theorem toNat_packComponents (exponent : BitVec 11) (mantissa : BitVec 52) :
    (packComponents binary64 .positive exponent mantissa).toNat =
      exponent.toNat * leadingBit + mantissa.toNat := by
  have front : (0#1 ++ exponent).toNat = exponent.toNat := by
    rw [BitVec.toNat_append]
    simp
  change (0#1 ++ exponent ++ mantissa).toNat = _
  rw [toNat_append, front]

/-! ## Unpacking and packing -/

/-- What a finite magnitude is unpacked to, case by case as in `ofMagnitude`. -/
inductive Unpacked (m : Nat) : UnpackedFloat → Prop
  | zero : m = 0 → Unpacked m (.zero .positive)
  | subnormal {f : Nat} {e : Int} (pos : 0 < f) : f = m → e = leastExponent → m < leadingBit →
      Unpacked m (.finite .positive f e pos)
  | normal {f : Nat} {e : Int} (pos : 0 < f) : f = leadingBit + m % leadingBit →
      e = leastExponent + (m / leadingBit - 1 : Nat) → leadingBit ≤ m → m < infinity →
      Unpacked m (.finite .positive f e pos)

theorem unpacked_word (h : m < infinity) : Unpacked m (UnpackedFloat.unpack binary64 (word m)) := by
  have most := infinity_eq
  have exponent := exponent_word h
  have mantissa := mantissa_word h
  rw [leadingBit_eq] at exponent mantissa
  have least : leastExponent = -1074 := rfl
  have bias : (exponentBias binary64 : Int) = 1023 := rfl
  have finite : unpackExponent (word m) ≠ -1#11 := fun last => by
    have : m / 4503599627370496 = 2047 := by rw [← exponent, last]; rfl
    omega
  unfold UnpackedFloat.unpack
  dsimp only
  -- The exponent field tells apart what is zero or below the least normal number.
  rw [sign_word h, if_neg finite]
  by_cases low : unpackExponent (word m) = 0#11
  · have : m / 4503599627370496 = 0 := by rw [← exponent, low]; rfl
    rw [if_pos low]
    by_cases none : unpackMantissa (word m) = 0#52
    · have : m % 4503599627370496 = 0 := by rw [← mantissa, none]; rfl
      rw [dif_pos none]
      exact .zero (by omega)
    · rw [dif_neg none]
      refine .subnormal _ (by omega) (by omega) ?_
      rw [leadingBit_eq]
      omega
  · have : m / 4503599627370496 ≠ 0 := fun zero =>
      low (BitVec.eq_of_toNat_eq (exponent.trans zero))
    rw [if_neg low]
    refine .normal _ ?_ ?_ ?_ h
    · rw [toNat_append, mantissa_word h]
      exact congrArg (· + m % leadingBit) (Nat.one_mul leadingBit)
    · rw [leadingBit_eq]
      omega
    · rw [leadingBit_eq]
      omega

theorem Unpacked.toNat_pack (h : Unpacked m u) : (u.pack binary64).toNat = m := by
  have most := infinity_eq
  have least : leastExponent = -1074 := rfl
  have bias : (exponentBias binary64 : Int) = 1023 := rfl
  have bits : mantissaBits binary64 = 53 := rfl
  cases h with
  | zero none =>
    rw [none]
    rfl
  | @subnormal f e pos significand exponent less =>
    rw [leadingBit_eq] at less
    have short : f.log2 < 52 := (Nat.log2_lt (Nat.ne_of_gt pos)).mpr (by omega)
    unfold UnpackedFloat.pack
    dsimp only
    rw [bias, bits, if_neg (by omega), if_neg (by omega), toNat_packComponents, leadingBit_eq,
      BitVec.toNat_ofNat, BitVec.toNat_ofNat]
    omega
  | @normal f e pos significand exponent large less =>
    rw [leadingBit_eq] at significand exponent large
    have full : f.log2 = 52 := (Nat.log2_eq_iff (Nat.ne_of_gt pos)).mpr (by omega)
    unfold UnpackedFloat.pack
    dsimp only
    rw [bias, bits, if_neg (by omega), if_pos (by omega), toNat_packComponents, leadingBit_eq,
      BitVec.toNat_ofNat, BitVec.toNat_ofNat]
    omega

theorem Unpacked.beq_infinity (h : Unpacked m u) : u.beq (.infinity .positive) = false := by
  cases h <;> rfl

/-! ## Numbers -/

theorem toNat_toBits_number (h : m < infinity) : (number m).toBits.toNat = m :=
  (unpacked_word h).toNat_pack

theorem toBits_number (h : m < infinity) : (number m).toBits = UInt64.ofNat m :=
  UInt64.toNat_inj.mp ((toNat_toBits_number h).trans (toNat_word h).symm)

theorem ofFloat_number (h : m < infinity) : ofFloat (number m) = ofMagnitude false m := by
  have low : m < signBit := Nat.lt_trans h (by decide)
  rw [ofFloat, toNat_toBits_number h, Nat.mod_eq_of_lt low, decide_eq_false (Nat.not_le.mpr low)]

theorem number_beq_infinity (h : m < infinity) : (number m == 1.0 / 0.0) = false := by
  have infinite : (1.0 / 0.0 : Float).toModel.unpack = .infinity .positive := by rfl
  have finite : (number m).toModel.unpack = UnpackedFloat.unpack binary64 (word m) :=
    congrArg (fun bits : UInt64 => UnpackedFloat.unpack binary64 bits.toBitVec) (toBits_number h)
  change (number m).toModel.unpack.beq (1.0 / 0.0 : Float).toModel.unpack = false
  rw [infinite, finite]
  exact (unpacked_word h).beq_infinity

end Worksheet.Binary64
