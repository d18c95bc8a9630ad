import Mathlib.Data.List.TakeWhile
import Worksheet.Decimal.Basic

/-!
# Numerals in a text

A numeral that is scanned is well-formed: it has digits before the point, and digits in its exponent
if it has one. A well-formed numeral is scanned back off any text that it begins, provided that the
text after it does not let it go on. It is also the longest one of any text that is cut off behind
it.

Results:
* `Numeral.WellFormed.mem_text`: the characters of a well-formed numeral.
* `Numeral.wellFormed_scan`: what is scanned at a digit is well-formed.
* `Numeral.scan_text_append`: a well-formed numeral is the longest one its text begins with.
* `Numeral.steady_scan`: the text may end anywhere behind a numeral that is scanned.
-/
namespace Worksheet.Decimal

structure Exponent.WellFormed (e : Exponent) : Prop where
  letter : e.letter = 'e' ∨ e.letter = 'E'
  sign : ∀ c ∈ e.sign, c = '+' ∨ c = '-'
  digits_ne_nil : e.digits ≠ []
  digits : ∀ c ∈ e.digits, c.isDigit = true

structure Numeral.WellFormed (n : Numeral) : Prop where
  whole_ne_nil : n.whole ≠ []
  whole : ∀ c ∈ n.whole, c.isDigit = true
  fraction : ∀ c ∈ n.fraction, c.isDigit = true
  exponent : ∀ e ∈ n.exponent, e.WellFormed

theorem Numeral.WellFormed.mem_text {n : Numeral} (h : n.WellFormed) {c : Char} (hc : c ∈ n.text) :
    c.isDigit = true ∨ c ∈ ['.', 'e', 'E', '+', '-'] := by
  simp only [Numeral.text, List.mem_append] at hc
  rcases hc with hc | hc | hc
  · exact .inl (h.whole c hc)
  · unfold fractionText at hc
    split at hc
    · cases hc
    · rcases List.mem_cons.mp hc with rfl | hc
      · exact .inr (by decide)
      · exact .inl (h.fraction c hc)
  · cases he : n.exponent with
    | none => rw [he] at hc; cases hc
    | some e =>
      rw [he] at hc
      obtain ⟨letter, sign, -, digits⟩ := h.exponent e he
      simp only [Option.map_some, Option.getD_some, Exponent.text, List.mem_cons, List.mem_append,
        Option.mem_toList] at hc
      rcases hc with rfl | hc | hc
      · rcases letter with same | same <;> rw [same] <;> exact .inr (by decide)
      · rcases sign c hc with rfl | rfl <;> exact .inr (by decide)
      · exact .inl (digits c hc)

/-- No numeral goes on into the text. -/
def Ends (rest : List Char) : Prop :=
  ∀ c ∈ rest.head?, c.isDigit = false ∧ c ≠ '.' ∧ c ≠ 'e' ∧ c ≠ 'E'

variable {ds rest : List Char}

/-! ## What is scanned -/

theorem mem_scanDigits {c : Char} {cs : List Char} (h : c ∈ (scanDigits cs).1) :
    c.isDigit = true := List.mem_takeWhile_imp h

theorem mem_scanSign {c : Char} {cs : List Char} (h : c ∈ (scanSign cs).1) : c = '+' ∨ c = '-' := by
  cases cs with
  | nil => cases h
  | cons d cs =>
    simp only [scanSign] at h
    split at h
    · next hd => cases h; exact hd
    · cases h

theorem mem_scanFraction {c : Char} {cs : List Char} (h : c ∈ (scanFraction cs).1) :
    c.isDigit = true := by
  cases cs with
  | nil => cases h
  | cons d cs =>
    simp only [scanFraction] at h
    split at h
    · exact mem_scanDigits h
    · cases h

theorem wellFormed_scanExponent {e : Exponent} {cs : List Char} (h : e ∈ (scanExponent cs).1) :
    e.WellFormed := by
  cases cs with
  | nil => cases h
  | cons d cs =>
    simp only [scanExponent] at h
    split at h
    · next hd =>
      cases h
      exact ⟨hd.1, fun c hc => mem_scanSign hc, hd.2, fun c hc => mem_scanDigits hc⟩
    · cases h

theorem Numeral.wellFormed_scan {c : Char} (cs : List Char) (h : c.isDigit = true) :
    (Numeral.scan (c :: cs)).1.WellFormed where
  whole_ne_nil := scan_whole_ne_nil cs h
  whole _ hd := mem_scanDigits hd
  fraction _ hd := mem_scanFraction hd
  exponent _ he := wellFormed_scanExponent he

/-! ## Scanning back -/

theorem scanDigits_append_of (h : ∀ c ∈ ds, c.isDigit = true)
    (stop : ∀ c ∈ rest.head?, c.isDigit = false) : scanDigits (ds ++ rest) = (ds, rest) := by
  have none : rest.takeWhile Char.isDigit = [] ∧ rest.dropWhile Char.isDigit = rest := by
    cases rest with
    | nil => exact ⟨rfl, rfl⟩
    | cons c rest =>
      have := stop c rfl
      simp [this]
  rw [scanDigits, List.takeWhile_append_of_pos h, List.dropWhile_append_of_pos h, none.1, none.2,
    List.append_nil]

theorem scanFraction_append (h : ∀ c ∈ ds, c.isDigit = true)
    (stop : ∀ c ∈ rest.head?, c.isDigit = false ∧ c ≠ '.') :
    scanFraction (fractionText ds ++ rest) = (ds, rest) := by
  by_cases empty : ds = []
  · subst empty
    cases rest with
    | nil => rfl
    | cons c rest =>
      simp only [fractionText, if_true, List.nil_append, scanFraction]
      rw [if_neg fun hc => (stop c rfl).2 hc.1]
  · have digits := scanDigits_append_of h fun c hc => (stop c hc).1
    rw [fractionText, if_neg empty, List.cons_append, scanFraction, digits, if_pos ⟨rfl, empty⟩]

theorem scanSign_append_of {sign : Option Char} (h : ∀ c ∈ sign, c = '+' ∨ c = '-')
    (next : ∀ c ∈ rest.head?, c ≠ '+' ∧ c ≠ '-') :
    scanSign (sign.toList ++ rest) = (sign, rest) := by
  cases sign with
  | none =>
    cases rest with
    | nil => rfl
    | cons c rest =>
      have := next c rfl
      simp [scanSign, this]
  | some c =>
    have := h c rfl
    simp [scanSign, this]

theorem scanExponent_append {exponent : Option Exponent} (h : ∀ e ∈ exponent, e.WellFormed)
    (stop : Ends rest) :
    scanExponent ((exponent.map Exponent.text).getD [] ++ rest) = (exponent, rest) := by
  cases exponent with
  | none =>
    cases rest with
    | nil => rfl
    | cons c rest =>
      have := stop c rfl
      simp [scanExponent, this]
  | some e =>
    obtain ⟨letter, sign, ne, digits⟩ := h e rfl
    have after := scanDigits_append_of digits fun c hc => (stop c hc).1
    have signed : scanSign (e.sign.toList ++ (e.digits ++ rest)) = (e.sign, e.digits ++ rest) := by
      refine scanSign_append_of sign fun c hc => ?_
      rw [List.head?_append, Option.or_of_isSome (List.isSome_head?.mpr ne)] at hc
      have := digits c (List.mem_of_mem_head? hc)
      constructor <;> rintro rfl <;> exact absurd this (by decide)
    simp only [Option.map_some, Option.getD_some, Exponent.text, List.cons_append,
      List.append_assoc, scanExponent, signed, after, letter, ne, ne_eq, not_false_eq_true,
      and_self, if_true]

theorem Numeral.scan_text_append {n : Numeral} (h : n.WellFormed) (stop : Ends rest) :
    Numeral.scan (n.text ++ rest) = (n, rest) := by
  have exponentHead : ∀ c ∈ ((n.exponent.map Exponent.text).getD [] ++ rest).head?,
      c.isDigit = false ∧ c ≠ '.' := by
    intro c hc
    cases he : n.exponent with
    | none =>
      rw [he] at hc
      exact ⟨(stop c hc).1, (stop c hc).2.1⟩
    | some e =>
      rw [he] at hc
      cases hc
      rcases (h.exponent e he).letter with same | same <;> rw [same] <;> decide
  have fractionHead : ∀ c ∈ (fractionText n.fraction ++
      ((n.exponent.map Exponent.text).getD [] ++ rest)).head?, c.isDigit = false := by
    intro c hc
    unfold fractionText at hc
    split at hc
    · exact (exponentHead c hc).1
    · cases hc; decide
  have whole := scanDigits_append_of h.whole fractionHead
  have fraction := scanFraction_append h.fraction exponentHead
  have exponent := scanExponent_append h.exponent stop
  simp only [Numeral.scan, Numeral.text, List.append_assoc, whole, fraction, exponent]

/-! ## Texts that are cut off -/

theorem span_of_append {p : Char → Bool} {cs behind : List Char}
    (h : (cs ++ behind).dropWhile p = rest ++ behind) :
    cs.takeWhile p = (cs ++ behind).takeWhile p ∧ cs.dropWhile p = rest := by
  induction cs generalizing rest with
  | nil =>
    rw [List.nil_append] at h ⊢
    have shorter := (List.dropWhile_sublist p (l := behind)).length_le
    rw [h, List.length_append] at shorter
    obtain rfl : rest = [] := List.length_eq_zero_iff.mp (by omega)
    have whole := List.takeWhile_append_dropWhile (p := p) (l := behind)
    rw [h, List.nil_append, List.append_left_eq_self] at whole
    exact ⟨whole.symm, rfl⟩
  | cons c cs ih =>
    by_cases hc : p c = true
    · rw [List.cons_append, List.dropWhile_cons_of_pos hc] at h
      rw [List.cons_append, List.takeWhile_cons_of_pos hc, List.takeWhile_cons_of_pos hc,
        List.dropWhile_cons_of_pos hc, (ih h).1]
      exact ⟨rfl, (ih h).2⟩
    · rw [List.cons_append, List.dropWhile_cons_of_neg hc, ← List.cons_append] at h
      rw [List.cons_append, List.takeWhile_cons_of_neg hc, List.takeWhile_cons_of_neg hc,
        List.dropWhile_cons_of_neg hc]
      exact ⟨rfl, List.append_cancel_right h⟩

/-- What is taken off a text stays the same when the text ends anywhere behind it. -/
def Steady {α : Type} (scan : List Char → α × List Char) : Prop :=
  ∀ {cs rest behind a}, scan (cs ++ behind) = (a, rest ++ behind) → scan cs = (a, rest)

theorem steady_scanDigits : Steady scanDigits := by
  intro cs rest behind taken h
  obtain ⟨rfl, left⟩ := Prod.mk.inj h
  obtain ⟨same, left⟩ := span_of_append left
  exact Prod.ext same left

theorem scanDigits_append_ne_nil {cs : List Char} (h : (scanDigits cs).1 ≠ []) (behind : List Char) :
    (scanDigits (cs ++ behind)).1 ≠ [] := by
  cases cs with
  | nil => exact absurd rfl h
  | cons c cs =>
    by_cases digit : c.isDigit = true
    · simp [scanDigits, digit]
    · simp [scanDigits, digit] at h

/-- What is taken off two texts and leaves all of the second is in the first. -/
theorem eq_append_of_lossless {taken left cs behind : List Char}
    (lossless : taken ++ (left ++ behind) = cs ++ behind) : taken ++ left = cs := by
  rw [← List.append_assoc] at lossless
  exact List.append_cancel_right lossless

theorem steady_scanFraction : Steady scanFraction := by
  intro cs rest behind taken h
  cases cs with
  | nil =>
    have lossless := fractionText_scanFraction behind
    rw [← List.nil_append behind, h] at lossless
    obtain ⟨none, rfl⟩ := List.append_eq_nil_iff.mp (eq_append_of_lossless lossless)
    unfold fractionText at none
    split at none
    · next empty => exact congrArg (·, []) empty.symm
    · cases none
  | cons c cs =>
    rw [List.cons_append] at h
    simp only [scanFraction] at h ⊢
    split at h
    · next point =>
      have digits := steady_scanDigits h
      rw [h] at point
      rw [digits, if_pos point]
    · next other =>
      obtain ⟨rfl, left⟩ := Prod.mk.inj h
      rw [← List.cons_append] at left
      obtain rfl := List.append_cancel_right left
      exact if_neg fun point => other ⟨point.1, scanDigits_append_ne_nil point.2 behind⟩

theorem steady_scanSign : Steady scanSign := by
  intro cs rest behind taken h
  cases cs with
  | nil =>
    have lossless := scanSign_append behind
    rw [← List.nil_append behind, h] at lossless
    obtain ⟨none, rfl⟩ := List.append_eq_nil_iff.mp (eq_append_of_lossless lossless)
    exact congrArg (·, []) (Option.toList_eq_nil_iff.mp none).symm
  | cons c cs =>
    rw [List.cons_append] at h
    simp only [scanSign] at h ⊢
    split at h
    · next sign =>
      obtain ⟨rfl, left⟩ := Prod.mk.inj h
      rw [if_pos sign, List.append_cancel_right left]
    · next other =>
      obtain ⟨rfl, left⟩ := Prod.mk.inj h
      rw [← List.cons_append] at left
      rw [if_neg other, List.append_cancel_right left]

theorem scanSign_digits_ne_nil {cs : List Char} (h : (scanDigits (scanSign cs).2).1 ≠ [])
    (behind : List Char) : (scanDigits (scanSign (cs ++ behind)).2).1 ≠ [] := by
  cases cs with
  | nil => exact absurd rfl h
  | cons c cs =>
    rw [List.cons_append]
    simp only [scanSign] at h ⊢
    split at h
    · next sign => rw [if_pos sign]; exact scanDigits_append_ne_nil h behind
    · next other => rw [if_neg other]; exact scanDigits_append_ne_nil h behind

theorem steady_scanExponent : Steady scanExponent := by
  intro cs rest behind taken h
  cases cs with
  | nil =>
    have lossless := text_scanExponent behind
    rw [← List.nil_append behind, h] at lossless
    obtain ⟨none, rfl⟩ := List.append_eq_nil_iff.mp (eq_append_of_lossless lossless)
    cases taken with
    | none => rfl
    | some e => cases none
  | cons c cs =>
    rw [List.cons_append] at h
    simp only [scanExponent] at h ⊢
    rcases signed : scanSign (cs ++ behind) with ⟨sign, tail⟩
    rcases counted : scanDigits tail with ⟨digits, after⟩
    simp only [signed, counted] at h
    split at h
    · next letter =>
      obtain ⟨rfl, rfl⟩ := Prod.mk.inj h
      -- The digits end before the cut, and so does the sign.
      have split := scanDigits_append tail
      rw [counted, ← List.append_assoc] at split
      rw [← split] at signed counted
      rw [steady_scanSign signed, steady_scanDigits counted, if_pos letter]
    · next other =>
      obtain ⟨rfl, left⟩ := Prod.mk.inj h
      rw [← List.cons_append] at left
      obtain rfl := List.append_cancel_right left
      refine if_neg fun letter => other ⟨letter.1, ?_⟩
      have more := scanSign_digits_ne_nil letter.2 behind
      rwa [signed, counted] at more

theorem Numeral.steady_scan : Steady Numeral.scan := by
  intro cs rest behind n h
  rcases whole : scanDigits (cs ++ behind) with ⟨digits, second⟩
  rcases fraction : scanFraction second with ⟨tenths, third⟩
  rcases exponent : scanExponent third with ⟨e, last⟩
  simp only [Numeral.scan, whole, fraction, exponent] at h
  obtain ⟨rfl, rfl⟩ := Prod.mk.inj h
  have cut := text_scanExponent third
  rw [exponent, ← List.append_assoc] at cut
  rw [← cut] at exponent fraction
  have split := fractionText_scanFraction second
  rw [fraction, ← List.append_assoc] at split
  rw [← split] at fraction whole
  simp only [Numeral.scan, steady_scanDigits whole, steady_scanFraction fraction,
    steady_scanExponent exponent]

end Worksheet.Decimal
