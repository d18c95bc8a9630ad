import Worksheet.Text.Blank

/-!
# Positions

A cell of the grid is named by a column letter and a row number, as in `b7`. A position counts both
from zero, in words of 64 bits, and may lie off the grid; an address is the name as it is written,
in which a `$` fixes the column or the row.

Results:
* `Position.onGrid_of_read`: a name that is read is on the grid.
-/
namespace Worksheet

/-- mirrors `MAX_COLS` -/
def columnCount : Nat := 26

/-- mirrors `MAX_ROWS` -/
def rowCount : Nat := 999

/-- A column and a row, counted from zero. -/
structure Position where
  col : UInt64
  row : UInt64
  deriving DecidableEq, Repr

namespace Position

def OnGrid (p : Position) : Prop := p.col.toNat < columnCount ∧ p.row.toNat < rowCount

instance (p : Position) : Decidable p.OnGrid := inferInstanceAs (Decidable (_ ∧ _))

/-- The position with a given column and row, if it is on the grid.
mirrors `Position.checked` -/
def onGrid? (col row : Int64) : Option Position :=
  if 0 ≤ col.toInt ∧ col.toInt < columnCount ∧ 0 ≤ row.toInt ∧ row.toInt < rowCount then
    some ⟨col.toUInt64, row.toUInt64⟩
  else none

/-- The letter of a column. After the last letter they start again.
mirrors `Position.col_to_letter` -/
def letter (col : UInt64) : Char := Char.ofNat ('a'.toNat + col.toNat % columnCount)

/-- The numeral of a row, counted from one. The word wraps, so that the last of all rows is 0. -/
def numeral (row : UInt64) : List Char := Nat.toDigits 10 (row + 1).toNat

/-- mirrors `Position.fmt` -/
def name (p : Position) : String := String.ofList (letter p.col :: numeral p.row)

end Position

/-! ## Addresses -/

/-- A cell as it is written: its column and row, each fixed or not. -/
structure Address where
  colFixed : Bool
  col : UInt64
  rowFixed : Bool
  row : UInt64
  deriving DecidableEq, Repr

/-- A text that is not the address of a cell of the grid. -/
structure BadAddress where
  text : String
  deriving DecidableEq, Repr

def BadAddress.message (e : BadAddress) : String := "bad cell reference '" ++ e.text ++ "'"

namespace Address

/-- Whether a text begins with `$`, and the text after it. -/
def takeMarker : List Char → Bool × List Char
  | [] => (false, [])
  | c :: cs => if c = '$' then (true, cs) else (false, c :: cs)

/-- The column of a letter of either case. -/
def column? (c : Char) : Option UInt64 :=
  if 'a' ≤ c ∧ c ≤ 'z' then some (.ofNat (c.toNat - 'a'.toNat))
  else if 'A' ≤ c ∧ c ≤ 'Z' then some (.ofNat (c.toNat - 'A'.toNat))
  else none

/-- The row of a numeral, which may begin with zeros. -/
def row? (digits : List Char) : Option UInt64 :=
  let number := Nat.ofDigitChars 10 digits 0
  if digits ≠ [] ∧ digits.all Char.isDigit ∧ 1 ≤ number ∧ number ≤ rowCount then
    some (.ofNat (number - 1))
  else none

/-- The address that a text without blanks around it stands for.
mirrors `split_ref` -/
def parse? (cs : List Char) : Option Address :=
  match (takeMarker cs).2 with
  | [] => none
  | c :: rest =>
    (column? c).bind fun col =>
      (row? (takeMarker rest).2).map fun row => ⟨(takeMarker cs).1, col, (takeMarker rest).1, row⟩

/-- The address a text stands for; blanks around it do not count. -/
def read (text : String) : Except BadAddress Address :=
  match parse? (Text.trimChars text.toList) with
  | some a => .ok a
  | none => .error ⟨Text.trim text⟩

def position (a : Address) : Position := ⟨a.col, a.row⟩

theorem column?_lt {c : Char} {col : UInt64} (h : column? c = some col) :
    col.toNat < columnCount := by
  simp only [column?] at h
  split at h
  · next hc =>
    have last : c.toNat ≤ 'z'.toNat := UInt32.le_iff_toNat_le.mp hc.2
    cases h
    simp only [columnCount, Char.reduceToNat, UInt64.toNat_ofNat'] at last ⊢
    omega
  · split at h
    · next hc =>
      have last : c.toNat ≤ 'Z'.toNat := UInt32.le_iff_toNat_le.mp hc.2
      cases h
      simp only [columnCount, Char.reduceToNat, UInt64.toNat_ofNat'] at last ⊢
      omega
    · cases h

theorem row?_lt {digits : List Char} {row : UInt64} (h : row? digits = some row) :
    row.toNat < rowCount := by
  simp only [row?] at h
  split at h
  · next hd =>
    cases h
    have := hd.2.2
    simp only [rowCount, UInt64.toNat_ofNat'] at *
    omega
  · cases h

theorem position_onGrid_of_parse? {cs : List Char} {a : Address} (h : parse? cs = some a) :
    a.position.OnGrid := by
  unfold parse? at h
  split at h
  · cases h
  · simp only [Option.bind_eq_some_iff, Option.map_eq_some_iff] at h
    obtain ⟨col, hcol, row, hrow, rfl⟩ := h
    exact ⟨column?_lt hcol, row?_lt hrow⟩

end Address

namespace Position

/-- The cell a text names; markers and blanks around it do not count.
mirrors `Position.parse` -/
def read (text : String) : Except BadAddress Position := (Address.read text).map Address.position

theorem onGrid_of_read {text : String} {p : Position} (h : read text = .ok p) : p.OnGrid := by
  simp only [read, Address.read] at h
  split at h
  · next a ha => cases h; exact Address.position_onGrid_of_parse? ha
  · cases h

end Position

end Worksheet
