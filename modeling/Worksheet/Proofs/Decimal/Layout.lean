import Mathlib.Data.List.DropRight
import Worksheet.Proofs.Decimal.Bits
import Worksheet.Proofs.Decimal.Numeral
import Worksheet.Proofs.Decimal.Shortest

/-!
# Reading back the text of a number

A number of a formula is written in full, with its digits moved to their places: behind zeros after
the point, before zeros, or on both sides of the point. Each of these is the text of a numeral, of
the same value as the shortest decimal. So whatever number a decimal is read as, the text of that
number is read as it again.

Results:
* `toDigits_eq_significant`: the digits of a number are its significant ones and zeros.
* `toRat_placed`: moving digits to their places keeps their value.
* `exists_numeral`: the text of a number that a decimal stands for is a numeral that stands for it.
-/
namespace Worksheet.Layout

open Decimal (Numeral ofDigits)
open Binary64 (number place)

variable {ds : List Char} {n : Nat} {e : ℤ}

/-! ## Digits -/

theorem ofDigits_append (cs ds : List Char) :
    ofDigits (cs ++ ds) = 10 ^ ds.length * ofDigits cs + ofDigits ds := by
  rw [ofDigits, Nat.ofDigitChars_append, Nat.ofDigitChars_eq_ofDigitChars_zero]
  rfl

theorem ofDigits_zeros (n : Nat) : ofDigits (List.replicate n '0') = 0 :=
  Nat.ofDigitChars_replicate_zero

theorem ofDigits_append_zeros (ds : List Char) (n : Nat) :
    ofDigits (ds ++ List.replicate n '0') = 10 ^ n * ofDigits ds := by
  rw [ofDigits_append, ofDigits_zeros, List.length_replicate, Nat.add_zero]

theorem ofDigits_zeros_append (n : Nat) (ds : List Char) :
    ofDigits (List.replicate n '0' ++ ds) = ofDigits ds := by
  rw [ofDigits_append, ofDigits_zeros, Nat.mul_zero, Nat.zero_add]

theorem toDigits_eq_significant (n : Nat) :
    ∃ zeros, Nat.toDigits 10 n = significant n ++ List.replicate zeros '0' := by
  have whole : (Nat.toDigits 10 n).rdropWhile (· = '0') ++ (Nat.toDigits 10 n).rtakeWhile (· = '0') =
      Nat.toDigits 10 n := List.rdropWhile_append_rtakeWhile ..
  have zeros : ∀ c ∈ (Nat.toDigits 10 n).rtakeWhile (· = '0'), c = '0' := by
    intro c hc
    simpa using List.mem_rtakeWhile_imp hc
  refine ⟨((Nat.toDigits 10 n).rtakeWhile (· = '0')).length, ?_⟩
  rw [← List.eq_replicate_of_mem zeros]
  exact whole.symm

theorem isDigit_of_mem_significant {c : Char} (h : c ∈ significant n) : c.isDigit = true := by
  obtain ⟨zeros, whole⟩ := toDigits_eq_significant n
  exact Nat.isDigit_of_mem_toDigits (by decide) (by decide)
    (whole ▸ List.mem_append_left _ h)

theorem significant_ne_nil (h : 0 < n) : significant n ≠ [] := by
  intro none
  obtain ⟨zeros, whole⟩ := toDigits_eq_significant n
  have value : ofDigits (Nat.toDigits 10 n) = n := Nat.ofDigitChars_ten_toDigits
  rw [whole, none, ofDigits_append_zeros] at value
  exact h.ne value

/-- The significant digits at the place of the first digit are the whole number. -/
theorem significant_value (n : Nat) (e : ℤ) :
    (ofDigits (significant n) : ℚ) *
        10 ^ (e + (Rounding.digitCount n - 1) + 1 - (significant n).length) = n * 10 ^ e := by
  obtain ⟨zeros, whole⟩ := toDigits_eq_significant n
  have value : ofDigits (Nat.toDigits 10 n) = n := Nat.ofDigitChars_ten_toDigits
  have count : Rounding.digitCount n = (significant n).length + zeros := by
    rw [Rounding.digitCount, whole, List.length_append, List.length_replicate]
  rw [whole, ofDigits_append_zeros] at value
  have shift : (10 : ℚ) ^ (e + (Rounding.digitCount n - 1) + 1 - (significant n).length) =
      10 ^ zeros * 10 ^ e := by
    rw [← zpow_natCast, ← zpow_add₀ (by norm_num)]
    congr 1
    omega
  have cast : (n : ℚ) = 10 ^ zeros * ofDigits (significant n) := by
    exact_mod_cast value.symm
  rw [shift, cast]
  ring

/-! ## Numbers in full -/

/-- The numeral of digits `d.ddd * 10 ^ exponent` with the digits at their places. -/
def placed (digits : List Char) (exponent : ℤ) : Numeral :=
  match exponent with
  | .negSucc zeros => ⟨['0'], List.replicate zeros '0' ++ digits, none⟩
  | .ofNat e =>
    if digits.length ≤ e + 1 then
      ⟨digits ++ List.replicate (e + 1 - digits.length) '0', [], none⟩
    else ⟨digits.take (e + 1), digits.drop (e + 1), none⟩

theorem isDigit_of_mem_zeros {c : Char} {k : Nat} (h : c ∈ List.replicate k '0') :
    c.isDigit = true := by
  rw [List.eq_of_mem_replicate h]
  rfl

theorem wellFormed_placed (ne : ds ≠ []) (digits : ∀ c ∈ ds, c.isDigit = true) (e : ℤ) :
    (placed ds e).WellFormed := by
  unfold placed
  cases e with
  | negSucc zeros =>
    refine ⟨List.cons_ne_nil _ _, ?_, fun c hc => ?_, nofun⟩
    · intro c hc
      rw [List.mem_singleton.mp hc]
      rfl
    · exact (List.mem_append.mp hc).elim isDigit_of_mem_zeros (digits c)
  | ofNat e =>
    dsimp only
    split
    · refine ⟨List.append_ne_nil_of_left_ne_nil ne _, fun c hc => ?_, nofun, nofun⟩
      exact (List.mem_append.mp hc).elim (digits c) isDigit_of_mem_zeros
    · refine ⟨?_, fun c hc => digits c (List.mem_of_mem_take hc),
        fun c hc => digits c (List.mem_of_mem_drop hc), nofun⟩
      simpa using ne

theorem text_placed (ne : ds ≠ []) (e : ℤ) : (placed ds e).text = fullText plain ds e := by
  unfold placed fullText
  cases e with
  | negSucc zeros =>
    have some_ : List.replicate zeros '0' ++ ds ≠ [] := List.append_ne_nil_of_right_ne_nil _ ne
    simp only [Numeral.text, Decimal.fractionText, if_neg some_]
    simp
  | ofNat e =>
    dsimp only
    split
    · simp [Numeral.text, Decimal.fractionText, plain]
    · next long =>
      have some_ : ds.drop (e + 1) ≠ [] := by
        rw [Ne, List.drop_eq_nil_iff]
        exact long
      simp only [Numeral.text, Decimal.fractionText, if_neg some_]
      simp

theorem toRat_placed (ds : List Char) (e : ℤ) :
    (placed ds e).value.toRat = ofDigits ds * 10 ^ (e + 1 - ds.length) := by
  unfold placed
  cases e with
  | negSucc zeros =>
    have digits : ofDigits (['0'] ++ (List.replicate zeros '0' ++ ds)) = ofDigits ds := by
      rw [ofDigits_append ['0'], ofDigits_zeros_append]
      exact (Nat.add_eq_right).mpr (Nat.mul_zero _)
    simp only [Numeral.value, Decimal.toRat, digits]
    congr 2
    rw [List.length_append, List.length_replicate]
    simp only [Option.map_none, Option.getD_none]
    omega
  | ofNat e =>
    dsimp only
    split
    · next short =>
      simp only [Numeral.value, Decimal.toRat, List.append_nil, ofDigits_append_zeros]
      have shift : Int.ofNat e + 1 - ds.length = ((e + 1 - ds.length : Nat) : ℤ) := by
        rw [Int.ofNat_eq_natCast]
        omega
      rw [shift, zpow_natCast]
      simp
      ring
    · simp only [Numeral.value, Decimal.toRat, List.take_append_drop]
      congr 2
      rw [List.length_drop, Int.ofNat_eq_natCast]
      simp only [Option.map_none, Option.getD_none]
      omega

/-! ## The text of a number -/

/-- The text of a finite number is a numeral that is read as it. -/
theorem exists_numeral_of_canonical {s : Nat} (canonical : Binary64.Canonical s e) :
    ∃ n : Numeral, n.WellFormed ∧ n.text = magnitudeText plain s e ∧
      n.value.magnitude = place s e := by
  rcases Nat.eq_zero_or_pos s with rfl | hs
  · have least : e = -1074 := canonical.normal.resolve_right (by omega)
    refine ⟨placed ['0'] 0, wellFormed_placed (by simp) (by simp) 0, ?_, ?_⟩
    · rw [text_placed (by simp), magnitudeText, if_pos rfl]
    · rw [least]
      rfl
  · have around := Rounding.around_shortest canonical hs plain.tie
    generalize hd : (Rounding.ofBinary s e).shortest plain.tie = d at around
    have digits_pos : 0 < d.digits := by
      refine Nat.pos_of_ne_zero fun zero => ?_
      have := around.pos hs
      rw [Decimal.toRat, zero, Nat.cast_zero, zero_mul] at this
      exact this.false
    have ne := significant_ne_nil digits_pos
    refine ⟨placed (significant d.digits) (d.exponent + (Rounding.digitCount d.digits - 1)),
      wellFormed_placed ne (fun _ => isDigit_of_mem_significant) _, ?_, ?_⟩
    · rw [text_placed ne, magnitudeText, if_neg hs.ne', hd]
      rfl
    · refine Decimal.magnitude_eq canonical hs ?_
      rw [toRat_placed, significant_value]
      exact around

theorem exists_numeral_of_magnitude {m : Nat} (h : m ≤ Binary64.infinity) :
    ∃ n : Numeral, n.WellFormed ∧ n.text = (Expr.numberText (number m)).toList ∧
      n.value.magnitude = m := by
  rcases Nat.lt_or_eq_of_le h with finite | rfl
  · obtain ⟨s, e, parts, canonical, same⟩ := Binary64.canonical_ofMagnitude finite
    obtain ⟨n, wellFormed, text, value⟩ := exists_numeral_of_canonical canonical
    refine ⟨n, wellFormed, ?_, value.trans same⟩
    rw [Expr.numberText, Binary64.number_beq_infinity finite, if_neg Bool.false_ne_true,
      Layout.text, Binary64.ofFloat_number finite, parts, text]
    exact String.toList_ofList.symm
  · have infinite : (number Binary64.infinity == 1.0 / 0.0) = true := by rfl
    refine ⟨⟨['1'], [], some ⟨'e', none, ['9', '9', '9']⟩⟩, ?_, ?_, rfl⟩
    · refine ⟨by simp, by simp, nofun, ?_⟩
      intro _ first
      cases first
      exact ⟨.inl rfl, nofun, by simp, by simp⟩
    · rw [Expr.numberText, infinite, if_pos rfl]
      rfl

end Worksheet.Layout

namespace Worksheet.Decimal

theorem magnitude_le_infinity (d : Decimal) : d.magnitude ≤ Binary64.infinity := by
  unfold magnitude
  split
  · split
    · exact Nat.zero_le _
    · split
      · exact Nat.le_refl _
      · exact Binary64.nearest_le_infinity _ _
  · split
    · exact Nat.zero_le _
    · exact Binary64.nearest_le_infinity _ _

/-- **Reading back.** The text of a number that a decimal stands for is a numeral that stands for
it. -/
theorem exists_numeral (d : Decimal) :
    ∃ n : Numeral, n.WellFormed ∧ n.text = (Expr.numberText d.toFloat).toList ∧
      n.value.toFloat = d.toFloat := by
  obtain ⟨n, wellFormed, text, value⟩ :=
    Layout.exists_numeral_of_magnitude d.magnitude_le_infinity
  exact ⟨n, wellFormed, text, by rw [toFloat, value]; rfl⟩

end Worksheet.Decimal
