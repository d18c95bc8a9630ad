import Worksheet.Proofs.Grid.Address

/-!
# Spellings of cells

A cell has many spellings: its letter may be of either case, its number may begin with zeros, each
of the two may have a marker, and there may be blanks around them. A text is read as a cell exactly
if it is one of these spellings, however long its number is written. All spellings of a cell lead to
its name, which is the spelling in lower case without zeros, markers and blanks.

Results:
* `Address.parse?_eq_some_iff`: the addresses are the spellings of cells, with their markers.
* `Spelling.Names.name_eq`: the name of a cell is the shortest of its spellings.
* `Position.read_spelled`: what is read as which cell, and that cells and names are the same.
-/
namespace Worksheet

/-- A letter and some digits, each with a marker or none. -/
structure Spelling where
  colFixed : Bool
  letter : Char
  rowFixed : Bool
  digits : List Char
  isAlpha_letter : letter.isAlpha = true
  digits_ne_nil : digits ≠ []
  isDigit_of_mem : ∀ c ∈ digits, c.isDigit = true

namespace Spelling

def chars (w : Spelling) : List Char :=
  (if w.colFixed then ['$'] else []) ++ w.letter ::
    ((if w.rowFixed then ['$'] else []) ++ w.digits)

/-- The place of the letter in the alphabet, counted from zero; its case makes no difference. -/
def column (w : Spelling) : Nat := w.letter.toLower.toNat - 'a'.toNat

def number (w : Spelling) : Nat := Nat.ofDigitChars 10 w.digits 0

/-- The cell of a spelling: rows are numbered from one. -/
structure Names (w : Spelling) (p : Position) : Prop where
  one_le : 1 ≤ w.number
  le_rowCount : w.number ≤ rowCount
  col : p.col.toNat = w.column
  row : p.row.toNat = w.number - 1

end Spelling

/-! ## Letters of either case -/

theorem isAlpha_iff {c : Char} : c.isAlpha = true ↔
    ('A'.toNat ≤ c.toNat ∧ c.toNat ≤ 'Z'.toNat) ∨ ('a'.toNat ≤ c.toNat ∧ c.toNat ≤ 'z'.toNat) := by
  delta Char.isAlpha Char.isUpper Char.isLower Char.toNat
  simp only [Bool.or_eq_true, Bool.and_eq_true, decide_eq_true_eq, UInt32.le_iff_toNat_le, ge_iff_le]

theorem toNat_toLower (c : Char) : c.toLower.toNat =
    if 'A'.toNat ≤ c.toNat ∧ c.toNat ≤ 'Z'.toNat then c.toNat + ('a'.toNat - 'A'.toNat)
    else c.toNat := by
  delta Char.toLower Char.toNat
  simp only [UInt32.le_iff_toNat_le, ge_iff_le]
  split
  · next upper =>
    have last : 'Z'.val.toNat = 90 := rfl
    have step : ('a'.val - 'A'.val).toNat = 32 := rfl
    have same : 'a'.val.toNat - 'A'.val.toNat = 32 := rfl
    simp only [UInt32.toNat_add, step, same]
    omega
  · rfl

theorem Address.column?_eq_some_iff {c : Char} {col : UInt64} :
    column? c = some col ↔ c.isAlpha = true ∧ col.toNat = c.toLower.toNat - 'a'.toNat := by
  have place (n : Nat) (h : n < columnCount) : some (UInt64.ofNat n) = some col ↔ col.toNat = n := by
    rw [Option.some_inj, ← UInt64.toNat_inj, UInt64.toNat_ofNat', eq_comm]
    unfold columnCount at h
    omega
  have le_iff (a b : Char) : a ≤ b ↔ a.toNat ≤ b.toNat := UInt32.le_iff_toNat_le
  simp only [isAlpha_iff, toNat_toLower, column?, le_iff, Char.reduceToNat]
  split
  · next lower =>
    rw [place _ (by unfold columnCount; omega), if_neg (by omega)]
    omega
  · split
    · next upper =>
      rw [place _ (by unfold columnCount; omega)]
      omega
    · simp only [reduceCtorEq, false_iff]
      omega

/-- The row of a numeral is one less than its number. -/
theorem Address.row?_eq_some_iff {digits : List Char} {row : UInt64} :
    row? digits = some row ↔ (digits ≠ [] ∧ ∀ c ∈ digits, c.isDigit = true) ∧
      1 ≤ Nat.ofDigitChars 10 digits 0 ∧ Nat.ofDigitChars 10 digits 0 ≤ rowCount ∧
      row.toNat = Nat.ofDigitChars 10 digits 0 - 1 := by
  simp only [row?, ← List.all_eq_true]
  generalize Nat.ofDigitChars 10 digits 0 = number
  split
  · next holds =>
    obtain ⟨nonempty, all, low, high⟩ := holds
    rw [Option.some_inj, ← UInt64.toNat_inj, UInt64.toNat_ofNat']
    simp only [nonempty, all, low, high, true_and, ne_eq, not_false_eq_true]
    unfold rowCount at high
    omega
  · next fails =>
    simp only [reduceCtorEq, false_iff]
    rintro ⟨⟨nonempty, all⟩, low, high, -⟩
    exact fails ⟨nonempty, all, low, high⟩

/-! ## What is an address -/

namespace Spelling

variable {w : Spelling} {p q : Position}

theorem takeMarker_chars (w : Spelling) (rest : List Char) : Address.takeMarker (w.chars ++ rest) =
    (w.colFixed, w.letter :: ((if w.rowFixed then ['$'] else []) ++ (w.digits ++ rest))) := by
  rw [chars, List.append_assoc, List.cons_append, List.append_assoc]
  refine Address.takeMarker_append ?_
  rintro c ⟨rfl⟩ same
  have alpha := w.isAlpha_letter
  rw [same] at alpha
  exact absurd alpha (by decide)

theorem takeMarker_digits (w : Spelling) (rest : List Char) :
    Address.takeMarker ((if w.rowFixed then ['$'] else []) ++ (w.digits ++ rest)) =
      (w.rowFixed, w.digits ++ rest) := by
  refine Address.takeMarker_append fun c first same => ?_
  rw [List.head?_append, Option.or_of_isSome (List.isSome_head?.mpr w.digits_ne_nil)] at first
  have digit := w.isDigit_of_mem c (List.mem_of_mem_head? first)
  rw [same] at digit
  exact absurd digit (by decide)

/-- A text is a spelling in one way at most. -/
theorem chars_inj {v : Spelling} (same : w.chars = v.chars) : w = v := by
  have first := w.takeMarker_chars []
  rw [same, v.takeMarker_chars, Prod.mk.injEq, List.cons.injEq] at first
  obtain ⟨colFixed, letter, rest⟩ := first
  have second := w.takeMarker_digits []
  rw [← rest, v.takeMarker_digits, Prod.mk.injEq] at second
  cases w
  cases v
  simp_all

end Spelling

namespace Address

theorem marker_append_takeMarker (cs : List Char) :
    (if (takeMarker cs).1 then ['$'] else []) ++ (takeMarker cs).2 = cs := by
  cases cs with
  | nil => rfl
  | cons c cs =>
    rw [takeMarker]
    split
    · next same => rw [same]; rfl
    · rfl

/-- The addresses are the spellings of cells. -/
theorem parse?_eq_some_iff {cs : List Char} {a : Address} : parse? cs = some a ↔
    ∃ w : Spelling, cs = w.chars ∧ w.Names a.position ∧
      a.colFixed = w.colFixed ∧ a.rowFixed = w.rowFixed := by
  constructor
  · intro parsed
    unfold parse? at parsed
    split at parsed
    · cases parsed
    · next c rest taken =>
      simp only [Option.bind_eq_some_iff, Option.map_eq_some_iff] at parsed
      obtain ⟨col, hcol, row, hrow, rfl⟩ := parsed
      obtain ⟨alpha, place⟩ := column?_eq_some_iff.mp hcol
      obtain ⟨⟨nonempty, digits⟩, low, high, number⟩ := row?_eq_some_iff.mp hrow
      let w : Spelling := ⟨(takeMarker cs).1, c, (takeMarker rest).1, (takeMarker rest).2, alpha,
        nonempty, digits⟩
      refine ⟨w, ?_, ⟨low, high, place, number⟩, rfl, rfl⟩
      rw [Spelling.chars, marker_append_takeMarker rest, ← taken, marker_append_takeMarker cs]
  · rintro ⟨w, rfl, names, hcol, hrow⟩
    obtain ⟨colFixed, col, rowFixed, row⟩ := a
    cases hcol
    cases hrow
    have column : column? w.letter = some col :=
      column?_eq_some_iff.mpr ⟨w.isAlpha_letter, names.col⟩
    have number : row? w.digits = some row := row?_eq_some_iff.mpr
      ⟨⟨w.digits_ne_nil, w.isDigit_of_mem⟩, names.one_le, names.le_rowCount, names.row⟩
    have marked := w.takeMarker_chars []
    have digits := w.takeMarker_digits []
    rw [List.append_nil, List.append_nil] at marked
    rw [List.append_nil] at digits
    simp only [parse?, marked, digits, column, number, Option.bind_some, Option.map_some]

end Address

/-! ## Names -/

namespace Spelling

variable {w : Spelling} {p q : Position}

theorem isBlank_eq_false {c : Char} (hc : c ∈ w.chars) : Text.isBlank c = false := by
  have alphanum (h : c.isAlpha = true ∨ c.isDigit = true) : Text.isBlank c = false :=
    Text.isBlank_of_isAlphanum (by rwa [Char.isAlphanum, Bool.or_eq_true])
  have marker {isFixed : Bool} (hc : c ∈ if isFixed then ['$'] else []) : Text.isBlank c = false := by
    cases isFixed with
    | true => rw [List.mem_singleton.mp hc]; decide
    | false => cases hc
  simp only [chars, List.mem_append, List.mem_cons] at hc
  rcases hc with hc | rfl | hc | hc
  · exact marker hc
  · exact alphanum (.inl w.isAlpha_letter)
  · exact marker hc
  · exact alphanum (.inr (w.isDigit_of_mem c hc))

theorem toNat_toLower_letter (w : Spelling) :
    'a'.toNat ≤ w.letter.toLower.toNat ∧ w.letter.toLower.toNat ≤ 'z'.toNat := by
  have alpha := isAlpha_iff.mp w.isAlpha_letter
  rw [toNat_toLower]
  simp only [Char.reduceToNat] at alpha ⊢
  split <;> omega

theorem Names.onGrid (h : w.Names p) : p.OnGrid := by
  have bounds := w.toNat_toLower_letter
  have high := h.le_rowCount
  have low := h.one_le
  simp only [Char.reduceToNat] at bounds
  unfold rowCount at high
  rw [Position.OnGrid, h.col, h.row, column, columnCount, rowCount]
  simp only [Char.reduceToNat]
  omega

/-- Two spellings lead to one cell if they agree on its letter, whatever the case, and its number.
-/
theorem Names.eq_iff {v : Spelling} (h : w.Names p) (hv : v.Names q) :
    p = q ↔ w.column = v.column ∧ w.number = v.number := by
  have low := h.one_le
  have lowToo := hv.one_le
  constructor
  · rintro rfl
    have rows := h.row.symm.trans hv.row
    exact ⟨h.col.symm.trans hv.col, by omega⟩
  · rintro ⟨column, number⟩
    obtain ⟨col, row⟩ := p
    obtain ⟨col', row'⟩ := q
    rw [Position.mk.injEq, ← UInt64.toNat_inj, ← UInt64.toNat_inj]
    exact ⟨h.col.trans (column.trans hv.col.symm), h.row.trans (number ▸ hv.row.symm)⟩

/-- The name of a cell is its spelling in lower case without markers and zeros. -/
theorem Names.name_eq (h : w.Names p) :
    p.name = String.ofList (w.letter.toLower :: Nat.toDigits 10 w.number) := by
  have bounds := w.toNat_toLower_letter
  simp only [Char.reduceToNat] at bounds
  have letter : Position.letter p.col = w.letter.toLower := by
    have place : 'a'.toNat + p.col.toNat % columnCount = w.letter.toLower.toNat := by
      rw [h.col, column, columnCount]
      simp only [Char.reduceToNat]
      omega
    rw [Position.letter, place, Char.ofNat_toNat]
  have number : (p.row + 1).toNat = w.number := by
    have one : (1 : UInt64).toNat = 1 := rfl
    have := h.one_le
    have := h.le_rowCount
    unfold rowCount at this
    rw [UInt64.toNat_add, h.row, one]
    omega
  rw [Position.name, letter, Position.numeral, number]

end Spelling

namespace Position

variable {p q : Position}

theorem read_eq_ok_iff {text : String} : read text = .ok p ↔
    ∃ w : Spelling, Text.trimChars text.toList = w.chars ∧ w.Names p := by
  have parsed : read text = .ok p ↔
      ∃ a, Address.parse? (Text.trimChars text.toList) = some a ∧ a.position = p := by
    rw [read, Address.read]
    cases Address.parse? (Text.trimChars text.toList) with
    | none => simp [Except.map]
    | some a => simp [Except.map]
  rw [parsed]
  constructor
  · rintro ⟨a, address, rfl⟩
    obtain ⟨w, written, names, -⟩ := Address.parse?_eq_some_iff.mp address
    exact ⟨w, written, names⟩
  · rintro ⟨w, written, names⟩
    exact ⟨⟨w.colFixed, p.col, w.rowFixed, p.row⟩,
      Address.parse?_eq_some_iff.mpr ⟨w, written, names, rfl, rfl⟩, rfl⟩

theorem name_inj (hp : p.OnGrid) (hq : q.OnGrid) (h : p.name = q.name) : p = q := by
  have same := read_name hp
  rw [h, read_name hq] at same
  exact (Except.ok.inj same).symm

/-- **Spellings.** A text is read as a cell exactly if, without the blanks around it, it is a letter
of either case and a number from one to `rowCount`, with markers or without, however long the number
is written; the cell is that of the letter and the number. Its name is the letter in lower case and
the shortest numeral, so two spellings lead to one name exactly if they have one letter and one
number. The name of a cell of the grid is read as the cell, and no other has it. -/
theorem read_spelled (text : String) (p : Position) :
    (read text = .ok p ↔ ∃ w : Spelling, Text.trimChars text.toList = w.chars ∧ w.Names p) ∧
      (∀ w : Spelling, w.Names p →
        p.name = String.ofList (w.letter.toLower :: Nat.toDigits 10 w.number)) ∧
      (∀ (w v : Spelling) (q : Position), w.Names p → v.Names q →
        (p.name = q.name ↔ w.column = v.column ∧ w.number = v.number)) ∧
      (p.OnGrid → read p.name = .ok p ∧ ∀ q : Position, q.OnGrid → p.name = q.name → p = q) := by
  refine ⟨read_eq_ok_iff, fun w names => names.name_eq, fun w v q hw hv => ?_, fun onGrid => ?_⟩
  · rw [← hw.eq_iff hv]
    exact ⟨name_inj hw.onGrid hv.onGrid, congrArg name⟩
  · exact ⟨read_name onGrid, fun q hq same => name_inj onGrid hq same⟩

/-- A cell with markers, a capital letter, more zeros than a word has digits, and blanks around it.
-/
theorem read_spelled_padded :
    read "\t$B$0000000000000000000000007\u3000" = .ok ⟨1, 6⟩ ∧ (⟨1, 6⟩ : Position).name = "b7" ∧
      read "b7" = .ok ⟨1, 6⟩ := by
  let w : Spelling := ⟨true, 'B', true, "0000000000000000000000007".toList, by decide, by decide,
    List.all_eq_true.mp (by decide)⟩
  have names : w.Names ⟨1, 6⟩ := ⟨by decide, by decide, by decide, by decide⟩
  obtain ⟨accepted, named, -, own⟩ := read_spelled "\t$B$0000000000000000000000007\u3000" ⟨1, 6⟩
  have name : (⟨1, 6⟩ : Position).name = "b7" := (named w names).trans (by decide +kernel)
  exact ⟨accepted.mpr ⟨w, by decide +kernel, names⟩, name, name ▸ (own names.onGrid).1⟩

/-- A number that does not fit into a word is refused; it is not 7. -/
example : (read "b18446744073709551623").toOption = none := by decide +kernel

end Position

end Worksheet
