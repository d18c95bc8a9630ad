import Worksheet.Proofs.Grid.Spelling

/-!
# References that are moved

A reference that was read in a formula at one cell leads somewhere from every other cell: a fixed
coordinate stays, and an offset one goes as far as the formula goes. On the grid these distances are
small, so the signed words hold them exactly; only where a coordinate leaves the grid does the
reference lead nowhere.

Results:
* `Coord.toInt_resolve_leading`: how far a coordinate goes.
* `Reference.moved_ofAddress`: what becomes of a reference at another cell.
* `Reference.read_moved`: the same for every text and every two cells of the grid.
-/
namespace Worksheet

/-! ## Coordinates -/

namespace Coord

/-- The index that a coordinate leads to from `base'` if it leads to `index` from `base`. -/
def moved (isFixed : Bool) (index base base' : UInt64) : Int :=
  if isFixed then index.toNat else index.toNat + (base'.toNat - base.toNat)

theorem toInt_resolve_leading (isFixed : Bool) {index base base' : UInt64}
    (hi : index.toNat < 1000) (hb : base.toNat < 1000) (hb' : base'.toNat < 1000) :
    ((leading isFixed index base).resolve base').toInt = moved isFixed index base base' := by
  have there := toInt_toInt64_of_lt hi
  cases isFixed with
  | true => exact there
  | false =>
    -- Neither the difference nor the sum leaves the range of a signed word.
    have distance : (index.toInt64 - base.toInt64).toInt = index.toNat - base.toNat := by
      rw [Int64.toInt_sub, there, toInt_toInt64_of_lt hb]
      exact Int.bmod_eq_of_le_mul_two (by omega) (by omega)
    have total : (base'.toInt64 + (index.toInt64 - base.toInt64)).toInt =
        base'.toNat + (index.toNat - base.toNat) := by
      rw [Int64.toInt_add, distance, toInt_toInt64_of_lt hb']
      exact Int.bmod_eq_of_le_mul_two (by omega) (by omega)
    simp only [leading, Bool.false_eq_true, if_false, resolve, total, moved]
    omega

end Coord

/-! ## Cells of the grid -/

namespace Position

variable {col row : Int64} {p : Position}

theorem lt_of_onGrid (h : p.OnGrid) : p.col.toNat < 1000 ∧ p.row.toNat < 1000 := by
  unfold OnGrid columnCount rowCount at h
  omega

theorem onGrid?_eq_some_iff_toInt : onGrid? col row = some p ↔
    p.OnGrid ∧ (p.col.toNat : Int) = col.toInt ∧ (p.row.toNat : Int) = row.toInt := by
  rw [onGrid?_eq_some_iff]
  refine and_congr_right fun onGrid => ?_
  obtain ⟨hcol, hrow⟩ := lt_of_onGrid onGrid
  rw [← toInt_toInt64_of_lt hcol, ← toInt_toInt64_of_lt hrow, Int64.toInt_inj, Int64.toInt_inj,
    eq_comm, @eq_comm _ row]

theorem onGrid?_eq_none_iff : onGrid? col row = none ↔
    ¬ (0 ≤ col.toInt ∧ col.toInt < columnCount ∧ 0 ≤ row.toInt ∧ row.toInt < rowCount) := by
  unfold onGrid?
  split <;> simp [*]

end Position

/-! ## References -/

namespace Reference

/-- A reference leads to the column `col` and the row `row` from `base`, if they are on the grid.
Then it is read back from its text there; otherwise it has the text `#REF!`. -/
structure Moved (r : Reference) (col row : Int) (base : Position) : Prop where
  resolves : ∀ q, r.resolve? base = some q ↔
    q.OnGrid ∧ (q.col.toNat : Int) = col ∧ (q.row.toNat : Int) = row
  astray : r.resolve? base = none ↔ ¬ (0 ≤ col ∧ col < columnCount ∧ 0 ≤ row ∧ row < rowCount)
  shown : r.text base = "#REF!" ↔ r.resolve? base = none
  readBack : ∀ q, r.resolve? base = some q → read base (r.text base) = .ok r

variable {r : Reference} {base base' : Position} {a : Address}

theorem text_eq_iff : r.text base = "#REF!" ↔ r.resolve? base = none := by
  constructor
  · intro shown
    cases resolved : r.resolve? base with
    | none => rfl
    | some p =>
      -- Otherwise the text would begin with a marker or a letter.
      have onGrid := onGrid_of_resolve? resolved
      have stray : '#' ∈ (r.address p).chars := by
        rw [← String.toList_ofList (l := (r.address p).chars), ← text_eq resolved, shown]
        decide
      rcases Address.mem_chars (a := r.address p) onGrid stray with alphanum | marker
      · exact absurd alphanum (by decide)
      · exact absurd marker (by decide)
  · intro astray
    rw [text, astray]

theorem moved_ofAddress (h : a.position.OnGrid) (onGrid : base.OnGrid) (onGrid' : base'.OnGrid) :
    (ofAddress base a).Moved (Coord.moved a.colFixed a.col base.col base'.col)
      (Coord.moved a.rowFixed a.row base.row base'.row) base' := by
  have target : a.col.toNat < 1000 ∧ a.row.toNat < 1000 := Position.lt_of_onGrid h
  have old := Position.lt_of_onGrid onGrid
  have new := Position.lt_of_onGrid onGrid'
  have col := Coord.toInt_resolve_leading a.colFixed target.1 old.1 new.1
  have row := Coord.toInt_resolve_leading a.rowFixed target.2 old.2 new.2
  refine ⟨fun q => ?_, ?_, text_eq_iff, fun q => read_text⟩
  · rw [resolve?, Position.onGrid?_eq_some_iff_toInt]
    simp only [ofAddress]
    rw [col, row]
  · rw [resolve?, Position.onGrid?_eq_none_iff]
    simp only [ofAddress]
    rw [col, row]

/-- **Moving.** A text is read as a reference exactly if it is read as a cell. From where it was
read the reference leads to this cell; from any other cell of the grid a coordinate that is marked
in the text stays and the other goes as far as the formula, unless one of the two leaves the grid.
Wherever the reference leads to a cell, it is read back from its text. -/
theorem read_moved (text : String) (onGrid : base.OnGrid) (onGrid' : base'.OnGrid) :
    ((∃ r, read base text = .ok r) ↔ ∃ p, Position.read text = .ok p) ∧
      ∀ r p, read base text = .ok r → Position.read text = .ok p → r.resolve? base = some p ∧
        ∃ w : Spelling, Text.trimChars text.toList = w.chars ∧ w.Names p ∧
          r.Moved (Coord.moved w.colFixed p.col base.col base'.col)
            (Coord.moved w.rowFixed p.row base.row base'.row) base' := by
  unfold read Position.read Address.read
  split
  · next a parsed =>
    refine ⟨iff_of_true ⟨_, rfl⟩ ⟨_, rfl⟩, ?_⟩
    rintro r p ⟨rfl⟩ ⟨rfl⟩
    have target := Address.position_onGrid_of_parse? parsed
    obtain ⟨w, written, names, colFixed, rowFixed⟩ := Address.parse?_eq_some_iff.mp parsed
    have moved := moved_ofAddress target onGrid onGrid'
    rw [colFixed, rowFixed] at moved
    exact ⟨resolve?_ofAddress target, w, written, names, moved⟩
  · refine ⟨iff_of_false ?_ ?_, ?_⟩
    · rintro ⟨r, ⟨⟩⟩
    · rintro ⟨p, ⟨⟩⟩
    · rintro r p ⟨⟩

/-- From `b7` to `a1` a reference to row 2 in the next column keeps its row and stays next to the
formula; one to the cell above leaves the grid. -/
theorem read_moved_to_a1 :
    let b7 : Position := ⟨1, 6⟩
    let a1 : Position := ⟨0, 0⟩
    b7.OnGrid ∧ a1.OnGrid ∧
      (∃ r, read b7 " C$2" = .ok r ∧ r.resolve? b7 = some ⟨2, 1⟩ ∧
        r.resolve? a1 = some ⟨1, 1⟩ ∧ read a1 (r.text a1) = .ok r) ∧
      ∃ r, read b7 "b6" = .ok r ∧ r.resolve? b7 = some ⟨1, 5⟩ ∧
        r.resolve? a1 = none ∧ r.text a1 = "#REF!" := by
  intro b7 a1
  have onGrid : b7.OnGrid ∧ a1.OnGrid := by decide
  refine ⟨onGrid.1, onGrid.2, ?_, ?_⟩
  · let v : Spelling := ⟨false, 'C', true, ['2'], by decide, by decide,
      List.all_eq_true.mp (by decide)⟩
    have c2 : Position.read " C$2" = .ok ⟨2, 1⟩ := by decide +kernel
    obtain ⟨accepted, moves⟩ := read_moved " C$2" onGrid.1 onGrid.2
    obtain ⟨r, hr⟩ := accepted.mpr ⟨_, c2⟩
    obtain ⟨here, w, written, -, moved⟩ := moves r _ hr c2
    obtain rfl : v = w := Spelling.chars_inj (Eq.trans (by decide +kernel) written)
    have there : r.resolve? a1 = some ⟨1, 1⟩ := (moved.resolves _).mpr (by decide)
    exact ⟨r, hr, here, there, moved.readBack _ there⟩
  · let v : Spelling := ⟨false, 'b', false, ['6'], by decide, by decide,
      List.all_eq_true.mp (by decide)⟩
    have b6 : Position.read "b6" = .ok ⟨1, 5⟩ := by decide +kernel
    obtain ⟨accepted, moves⟩ := read_moved "b6" onGrid.1 onGrid.2
    obtain ⟨r, hr⟩ := accepted.mpr ⟨_, b6⟩
    obtain ⟨here, w, written, -, moved⟩ := moves r _ hr b6
    obtain rfl : v = w := Spelling.chars_inj (Eq.trans (by decide +kernel) written)
    have astray : r.resolve? a1 = none := moved.astray.mpr (by decide)
    exact ⟨r, hr, here, astray, moved.shown.mpr astray⟩

end Reference

end Worksheet
