/-!
# Decimals

A decimal is a whole number of units of a power of ten. A numeral is its text: digits, then perhaps
a point with digits, then perhaps an exponent. `Numeral.scan` takes the longest numeral a text
begins with.

Results:
* `Numeral.text_append_scan`: scanning loses and invents nothing.
* `Numeral.scan_whole_ne_nil`: at a digit the numeral is not empty.
-/
namespace Worksheet

/-- The number `digits * 10 ^ exponent`. -/
structure Decimal where
  digits : Nat
  exponent : Int
  deriving DecidableEq, Repr

namespace Decimal

/-- The exponent of a numeral as it is written: the letter, a sign if there is one, the digits. -/
structure Exponent where
  letter : Char
  sign : Option Char
  digits : List Char
  deriving DecidableEq, Repr

/-- A numeral as it is written. A fraction without digits stands for no fraction, point included. -/
structure Numeral where
  whole : List Char
  fraction : List Char
  exponent : Option Exponent
  deriving DecidableEq, Repr

/-! ## The text of a numeral -/

def Exponent.text (e : Exponent) : List Char := e.letter :: (e.sign.toList ++ e.digits)

def fractionText (digits : List Char) : List Char := if digits = [] then [] else '.' :: digits

def Numeral.text (n : Numeral) : List Char :=
  n.whole ++ (fractionText n.fraction ++ (n.exponent.map Exponent.text).getD [])

/-! ## The value of a numeral -/

def ofDigits (cs : List Char) : Nat := Nat.ofDigitChars 10 cs 0

def Exponent.value (e : Exponent) : Int :=
  if e.sign = some '-' then -(ofDigits e.digits : Int) else ofDigits e.digits

/-- Every digit after the point makes the unit ten times smaller. -/
def Numeral.value (n : Numeral) : Decimal where
  digits := ofDigits (n.whole ++ n.fraction)
  exponent := (n.exponent.map Exponent.value).getD 0 - n.fraction.length

/-! ## Scanning -/

def scanDigits (cs : List Char) : List Char × List Char :=
  (cs.takeWhile Char.isDigit, cs.dropWhile Char.isDigit)

/-- A point is part of a numeral only if a digit follows it. -/
def scanFraction : List Char → List Char × List Char
  | [] => ([], [])
  | c :: cs =>
    if c = '.' ∧ (scanDigits cs).1 ≠ [] then scanDigits cs else ([], c :: cs)

def scanSign : List Char → Option Char × List Char
  | [] => (none, [])
  | c :: cs => if c = '+' ∨ c = '-' then (some c, cs) else (none, c :: cs)

/-- The letter `e` is part of a numeral only if a digit follows it and its sign. -/
def scanExponent : List Char → Option Exponent × List Char
  | [] => (none, [])
  | c :: cs =>
    if (c = 'e' ∨ c = 'E') ∧ (scanDigits (scanSign cs).2).1 ≠ [] then
      (some ⟨c, (scanSign cs).1, (scanDigits (scanSign cs).2).1⟩, (scanDigits (scanSign cs).2).2)
    else (none, c :: cs)

/-- The longest numeral a text begins with, and the text after it.
mirrors `number_re` -/
def Numeral.scan (cs : List Char) : Numeral × List Char :=
  let whole := scanDigits cs
  let fraction := scanFraction whole.2
  let exponent := scanExponent fraction.2
  (⟨whole.1, fraction.1, exponent.1⟩, exponent.2)

theorem scanDigits_append (cs : List Char) : (scanDigits cs).1 ++ (scanDigits cs).2 = cs :=
  List.takeWhile_append_dropWhile

theorem fractionText_scanFraction (cs : List Char) :
    fractionText (scanFraction cs).1 ++ (scanFraction cs).2 = cs := by
  cases cs with
  | nil => rfl
  | cons c cs =>
    simp only [scanFraction]
    split
    · next h => rw [fractionText, if_neg h.2, List.cons_append, scanDigits_append, h.1]
    · rfl

theorem scanSign_append (cs : List Char) : (scanSign cs).1.toList ++ (scanSign cs).2 = cs := by
  cases cs with
  | nil => rfl
  | cons c cs => simp only [scanSign]; split <;> rfl

theorem text_scanExponent (cs : List Char) :
    ((scanExponent cs).1.map Exponent.text).getD [] ++ (scanExponent cs).2 = cs := by
  cases cs with
  | nil => rfl
  | cons c cs =>
    simp only [scanExponent]
    split
    · simp only [Option.map_some, Option.getD_some, Exponent.text, List.cons_append,
        List.append_assoc, scanDigits_append, scanSign_append]
    · rfl

theorem Numeral.text_append_scan (cs : List Char) :
    (Numeral.scan cs).1.text ++ (Numeral.scan cs).2 = cs := by
  simp only [Numeral.scan, Numeral.text, List.append_assoc, text_scanExponent,
    fractionText_scanFraction, scanDigits_append]

theorem Numeral.scan_whole_ne_nil {c : Char} (cs : List Char) (h : c.isDigit = true) :
    (Numeral.scan (c :: cs)).1.whole ≠ [] := by
  simp [Numeral.scan, scanDigits, h]

end Decimal

end Worksheet
