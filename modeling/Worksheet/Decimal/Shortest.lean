import Worksheet.Decimal.Basic
import Worksheet.Decimal.Binary64

/-!
# The shortest decimal that reads back

A positive number of the binary format is the nearest one to every decimal of an interval around
it. Of the decimals in that interval the ones with the fewest digits are wanted, and of those the
one nearest to the number. If some decimal with a given last place lies in the interval, then one of
the number's two neighbours with that last place does, so only these two are tried.

Results:
* `holds_of_pick`: a decimal that is picked lies in the interval.
-/
namespace Worksheet

/-- Which of two equally near decimals is taken: the greater one, or the one with the even last
digit. -/
inductive Tie where
  | up
  | even
  deriving DecidableEq, Repr

/-- A positive number `value / unit` and the interval from `low / unit` to `high / unit` of what
rounds to it. The ends belong to the interval if it is closed. -/
structure Rounding where
  value : Nat
  low : Nat
  high : Nat
  unit : Nat
  closed : Bool
  deriving DecidableEq, Repr

namespace Rounding

/-- The interval of `significand * 2 ^ exponent`: half way to the next number on either side, and
half as far below where the next number down has a smaller exponent. -/
def ofBinary (significand : Nat) (exponent : Int) : Rounding :=
  let closeBelow := significand = Binary64.leadingBit ∧ Binary64.leastExponent < exponent
  let scale := Nat.pow 2 (exponent - 2).toNat
  { value := 4 * significand * scale
    low := (4 * significand - if closeBelow then 1 else 2) * scale
    high := (4 * significand + 2) * scale
    unit := Nat.pow 2 (2 - exponent).toNat
    closed := significand % 2 = 0 }

/-- The same number and interval, counted in units of `10 ^ place`. -/
def atPlace (r : Rounding) (place : Int) : Rounding :=
  let scale := Nat.pow 10 (-place).toNat
  { value := r.value * scale
    low := r.low * scale
    high := r.high * scale
    unit := r.unit * Nat.pow 10 place.toNat
    closed := r.closed }

def holds (r : Rounding) (n : Nat) : Bool :=
  if r.closed then r.low ≤ n * r.unit && n * r.unit ≤ r.high
  else r.low < n * r.unit && n * r.unit < r.high

/-- Of the whole numbers next to the value, the nearest one in the interval. -/
def pick (tie : Tie) (r : Rounding) : Option Nat :=
  let below := r.value / r.unit
  let above := below + 1
  match r.holds below, r.holds above with
  | false, false => none
  | true, false => some below
  | false, true => some above
  | true, true =>
    match compare (r.value - below * r.unit) (above * r.unit - r.value), tie with
    | .lt, _ => some below
    | .gt, _ => some above
    | .eq, .up => some above
    | .eq, .even => some (if below % 2 = 0 then below else above)

def digitCount (n : Nat) : Nat := (Nat.toDigits 10 n).length

/-- The place of the first digit: the greatest `e` with `10 ^ e ≤ value / unit`. -/
def firstPlace (r : Rounding) : Int :=
  if r.unit ≤ r.value then digitCount (r.value / r.unit) - 1
  else -digitCount ((r.unit - 1) / r.value)

/-- The shortest decimal of the interval. Seventeen digits always suffice. -/
def shortest (tie : Tie) (r : Rounding) : Decimal :=
  let attempt (n : Nat) : Option Decimal :=
    let place := r.firstPlace - n
    (pick tie (r.atPlace place)).map fun digits => ⟨digits, place⟩
  ((List.range 17).findSome? attempt).getD ⟨r.value / r.unit, 0⟩

theorem holds_of_pick {tie : Tie} {r : Rounding} {n : Nat} (h : r.pick tie = some n) :
    r.holds n = true := by
  simp only [pick] at h
  split at h
  · cases h
  · next h₁ _ => cases h; exact h₁
  · next _ h₂ => cases h; exact h₂
  · next h₁ h₂ =>
    split at h
    · cases h; exact h₁
    · cases h; exact h₂
    · cases h; exact h₂
    · split at h
      · cases h; exact h₁
      · cases h; exact h₂

end Rounding

end Worksheet
