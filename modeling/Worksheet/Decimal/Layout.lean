import Worksheet.Decimal.Shortest

/-!
# The text of a number

A layout says how a number is written: which exponents are written out in full, what ends a whole
number, how an exponent is marked, and the words for what is not finite. The digits are the shortest
that read back. `Layout.plain` is the text in formulas and answers, `Layout.json` the one in JSON.
-/
namespace Worksheet

/-- How numbers are written. An exponent is that of the first digit. -/
structure Layout where
  tie : Tie
  inFull : Int → Bool
  wholeEnd : List Char
  risingMark : List Char
  notNumber : String
  infinity : String
  negativeInfinity : String

namespace Layout

/-- Every number is written in full, whole numbers without a point.
mirrors `format_number` -/
def plain : Layout where
  tie := .up
  inFull := fun _ => true
  wholeEnd := []
  risingMark := []
  notNumber := "NaN"
  infinity := "Infinity"
  negativeInfinity := "-Infinity"

/-- Numbers from 0.00001 to below `10 ^ 16` are written in full and always with a point; JSON has
no number that is not finite. -/
def json : Layout where
  tie := .even
  inFull := fun e => -5 ≤ e && e ≤ 15
  wholeEnd := ['.', '0']
  risingMark := ['+']
  notNumber := "null"
  infinity := "null"
  negativeInfinity := "null"

/-- The digits of a decimal without the zeros at their end. -/
def significant (digits : Nat) : List Char :=
  ((Nat.toDigits 10 digits).reverse.dropWhile (· = '0')).reverse

/-- Digits `d.ddd * 10 ^ exponent` written in full. -/
def fullText (l : Layout) (digits : List Char) (exponent : Int) : List Char :=
  match exponent with
  | .negSucc zeros => '0' :: '.' :: (List.replicate zeros '0' ++ digits)
  | .ofNat e =>
    if digits.length ≤ e + 1 then
      digits ++ List.replicate (e + 1 - digits.length) '0' ++ l.wholeEnd
    else digits.take (e + 1) ++ '.' :: digits.drop (e + 1)

/-- Digits `d.ddd * 10 ^ exponent` written with an exponent. -/
def exponentText (l : Layout) (digits : List Char) (exponent : Int) : List Char :=
  let fraction := digits.drop 1
  let mark := if exponent < 0 then ['-'] else l.risingMark
  digits.take 1 ++ (if fraction = [] then [] else '.' :: fraction) ++
    'e' :: (mark ++ Nat.toDigits 10 exponent.natAbs)

def magnitudeText (l : Layout) (significand : Nat) (exponent : Int) : List Char :=
  if significand = 0 then fullText l ['0'] 0
  else
    let d := (Rounding.ofBinary significand exponent).shortest l.tie
    let first := d.exponent + (Rounding.digitCount d.digits - 1)
    let digits := significant d.digits
    if l.inFull first then fullText l digits first else exponentText l digits first

def text (l : Layout) (x : Float) : String :=
  match Binary64.ofFloat x with
  | .notNumber => l.notNumber
  | .infinite false => l.infinity
  | .infinite true => l.negativeInfinity
  | .finite negative significand exponent =>
    String.ofList ((if negative then ['-'] else []) ++ magnitudeText l significand exponent)

end Layout

end Worksheet
