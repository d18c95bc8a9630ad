import Worksheet.Grid.Reference
import Worksheet.Proofs.Text.Blank

/-!
# Names and references read back

On the grid a signed coordinate and its unsigned word are the same number, a column has its own
letter, and a row is what its numeral stands for. So the name of a cell of the grid names that cell,
and a reference that leads to a cell of the grid is read back from its text, with the same
coordinates.

Results:
* `Position.onGrid?_eq_some_iff`: which cells of the grid there are.
* `Position.read_name`: the name of a cell of the grid is read as that cell.
* `Reference.resolve?_ofAddress`: a reference leads to the cell it was read from.
* `Reference.read_text`: a reference is read back from its text.
-/
namespace Worksheet

/-! ## Words on the grid -/

theorem toInt_toInt64_of_lt {x : UInt64} (h : x.toNat < 1000) : x.toInt64.toInt = x.toNat := by
  have : x.toInt64.toBitVec.toInt = (x.toBitVec.toNat : Int) :=
    BitVec.toInt_eq_toNat_of_lt (by rw [UInt64.toBitVec_toInt64, UInt64.toNat_toBitVec]; omega)
  rwa [Int64.toInt_toBitVec, UInt64.toNat_toBitVec] at this

theorem toNat_toUInt64_of_nonneg {x : Int64} (h : 0 ≤ x.toInt) :
    (x.toUInt64.toNat : Int) = x.toInt := by
  have low : 2 * x.toBitVec.toNat < 2 ^ 64 := by
    refine Decidable.byContradiction fun high => ?_
    have := BitVec.toInt_eq_toNat_cond x.toBitVec
    rw [if_neg high, Int64.toInt_toBitVec] at this
    have := x.toBitVec.isLt
    omega
  have := BitVec.toInt_eq_toNat_of_lt low
  rw [Int64.toInt_toBitVec] at this
  rw [this]
  rfl

namespace Position

theorem onGrid?_eq_some_iff {col row : Int64} {p : Position} :
    onGrid? col row = some p ↔ p.OnGrid ∧ col = p.col.toInt64 ∧ row = p.row.toInt64 := by
  unfold onGrid? OnGrid columnCount rowCount
  constructor
  · intro h
    split at h
    · next bounds =>
      cases h
      have := toNat_toUInt64_of_nonneg bounds.1
      have := toNat_toUInt64_of_nonneg bounds.2.2.1
      refine ⟨⟨?_, ?_⟩, (Int64.toInt64_toUInt64 col).symm, (Int64.toInt64_toUInt64 row).symm⟩ <;>
        simp only at * <;> omega
    · cases h
  · intro holds
    obtain ⟨⟨hcol, hrow⟩, rfl, rfl⟩ := holds
    have col := toInt_toInt64_of_lt (x := p.col) (by omega)
    have row := toInt_toInt64_of_lt (x := p.row) (by omega)
    rw [if_pos (by rw [col, row]; omega)]
    simp

end Position

/-! ## Letters and numerals -/

/-- The letters of the columns: each is read as its column, and as part of a word. -/
theorem letter_spec {col : UInt64} (h : col.toNat < columnCount) :
    Address.column? (Position.letter col) = some col ∧
      (Position.letter col).isAlpha = true := by
  have each : ∀ n : Fin columnCount,
      Address.column? (Position.letter (.ofNat n)) = some (.ofNat n) ∧
        (Position.letter (.ofNat n)).isAlpha = true := by decide
  have := each ⟨col.toNat, h⟩
  rwa [UInt64.ofNat_toNat] at this

theorem isDigit_letter {col : UInt64} (h : col.toNat < columnCount) :
    (Position.letter col).isDigit = false := by
  have each : ∀ n : Fin columnCount, (Position.letter (.ofNat n)).isDigit = false := by decide
  have := each ⟨col.toNat, h⟩
  rwa [UInt64.ofNat_toNat] at this

theorem isDigit_of_mem_numeral {c : Char} {row : UInt64} (h : c ∈ Position.numeral row) :
    c.isDigit = true :=
  Nat.isDigit_of_mem_toDigits (by decide) (by decide) h

theorem row?_numeral {row : UInt64} (h : row.toNat < rowCount) :
    Address.row? (Position.numeral row) = some row := by
  have next : (row + 1).toNat = row.toNat + 1 := by
    unfold rowCount at h
    have : (1 : UInt64).toNat = 1 := rfl
    rw [UInt64.toNat_add]
    omega
  have digits : (Position.numeral row).all Char.isDigit = true :=
    List.all_eq_true.mpr fun c hc => isDigit_of_mem_numeral hc
  have value : Nat.ofDigitChars 10 (Position.numeral row) 0 = row.toNat + 1 := by
    rw [Position.numeral, Nat.ofDigitChars_ten_toDigits, next]
  rw [Address.row?, value, if_pos]
  · simp
  · exact ⟨Nat.toDigits_ne_nil, digits, by omega, by omega⟩

/-! ## Addresses -/

/-- A letter and a numeral, each with a marker or none. -/
def Address.chars (a : Address) : List Char :=
  (if a.colFixed then ['$'] else []) ++ Position.letter a.col ::
    ((if a.rowFixed then ['$'] else []) ++ Position.numeral a.row)

namespace Address

variable {a : Address}

theorem takeMarker_append {isFixed : Bool} {cs : List Char} (h : ∀ c ∈ cs.head?, c ≠ '$') :
    takeMarker ((if isFixed then ['$'] else []) ++ cs) = (isFixed, cs) := by
  cases isFixed with
  | true => rfl
  | false =>
    cases cs with
    | nil => rfl
    | cons c cs => simp [takeMarker, h c rfl]

theorem parse?_chars (h : a.position.OnGrid) : parse? a.chars = some a := by
  have column := letter_spec h.1
  have first : takeMarker a.chars = (a.colFixed, Position.letter a.col ::
      ((if a.rowFixed then ['$'] else []) ++ Position.numeral a.row)) := by
    refine takeMarker_append ?_
    intro _ first same
    cases first
    exact absurd (same ▸ column.2 : ('$' : Char).isAlpha = true) (by decide)
  have second : takeMarker ((if a.rowFixed then ['$'] else []) ++ Position.numeral a.row) =
      (a.rowFixed, Position.numeral a.row) := by
    refine takeMarker_append fun c hc => ?_
    intro same
    subst same
    exact absurd (isDigit_of_mem_numeral (List.mem_of_mem_head? hc)) (by decide)
  have col : column? (Position.letter a.col) = some a.col := column.1
  have row : row? (Position.numeral a.row) = some a.row := row?_numeral h.2
  simp only [parse?, first, second, col, row, Option.bind_some, Option.map_some]

theorem mem_chars {c : Char} (h : a.position.OnGrid) (hc : c ∈ a.chars) :
    c.isAlphanum = true ∨ c = '$' := by
  have alpha : (Position.letter a.col).isAlpha = true := (letter_spec h.1).2
  have marker {isFixed : Bool} (hc : c ∈ if isFixed then ['$'] else []) : c = '$' := by
    cases isFixed with
    | true => exact List.mem_singleton.mp hc
    | false => cases hc
  simp only [chars, List.mem_append, List.mem_cons] at hc
  rcases hc with hc | rfl | hc | hc
  · exact .inr (marker hc)
  · exact .inl (by simp [Char.isAlphanum, alpha])
  · exact .inr (marker hc)
  · exact .inl (by simp [Char.isAlphanum, isDigit_of_mem_numeral hc])

theorem isDigit_head_chars (h : a.position.OnGrid) : ∃ c ∈ a.chars.head?, c.isDigit = false := by
  unfold chars
  cases a.colFixed with
  | true => exact ⟨'$', rfl, rfl⟩
  | false => exact ⟨Position.letter a.col, rfl, isDigit_letter h.1⟩

theorem read_chars (h : a.position.OnGrid) : read (String.ofList a.chars) = .ok a := by
  have solid : ∀ c ∈ a.chars, Text.isBlank c = false := by
    intro c hc
    rcases mem_chars h hc with word | rfl
    · exact Text.isBlank_of_isAlphanum word
    · decide
  rw [read, String.toList_ofList, Text.trimChars_eq_self solid, parse?_chars h]

end Address

theorem Position.read_name {p : Position} (h : p.OnGrid) : read p.name = .ok p := by
  have address := Address.read_chars (a := ⟨false, p.col, false, p.row⟩) h
  have chars : (⟨false, p.col, false, p.row⟩ : Address).chars = letter p.col :: numeral p.row := rfl
  rw [read, name, ← chars, address]
  rfl

/-! ## References -/

namespace Reference

variable {r : Reference} {base p : Position}

theorem onGrid_of_resolve? (h : r.resolve? base = some p) : p.OnGrid :=
  (Position.onGrid?_eq_some_iff.mp h).1

/-- A reference leads to the cell it was read from. -/
theorem resolve?_ofAddress {a : Address} (h : a.position.OnGrid) :
    (ofAddress base a).resolve? base = some a.position := by
  simp only [resolve?, ofAddress, Coord.resolve_leading, Position.onGrid?_eq_some_iff]
  exact ⟨h, rfl, rfl⟩

theorem resolve?_of_read {text : String} (h : read base text = .ok r) :
    (r.resolve? base).isSome := by
  simp only [read, Address.read] at h
  split at h
  · next a ha =>
    cases h
    rw [resolve?_ofAddress (Address.position_onGrid_of_parse? ha)]
    rfl
  · cases h

/-- The address that a reference makes at the cell it leads to. -/
def address (r : Reference) (p : Position) : Address where
  colFixed := r.col.marker ≠ []
  col := p.col
  rowFixed := r.row.marker ≠ []
  row := p.row

theorem text_eq (h : r.resolve? base = some p) :
    r.text base = String.ofList (r.address p).chars := by
  have marker (c : Coord) : (if decide (c.marker ≠ []) then ['$'] else []) = c.marker := by
    cases c <;> rfl
  rw [text, h, Address.chars, address, marker, marker]

theorem leading_resolve {c : Coord} {base index : UInt64} (h : c.resolve base = index.toInt64) :
    Coord.leading (decide (c.marker ≠ [])) index base = c := by
  cases c with
  | fixed i => simp only [Coord.leading, Coord.marker, ← h, Coord.resolve]; rfl
  | offset d =>
    simp only [Coord.resolve] at h
    simp only [Coord.leading, Coord.marker, ← h]
    rw [Int64.add_comm, Int64.add_sub_cancel]
    rfl

/-- A reference is read back from its text. -/
theorem read_text (h : r.resolve? base = some p) : read base (r.text base) = .ok r := by
  obtain ⟨onGrid, col, row⟩ := Position.onGrid?_eq_some_iff.mp h
  have address : Address.read (r.text base) = .ok (r.address p) := by
    rw [text_eq h, Address.read_chars (a := r.address p) onGrid]
  rw [read, address]
  simp only [Except.map, ofAddress, Reference.address, leading_resolve col, leading_resolve row]

end Reference

end Worksheet
