import Worksheet.Formula.Text
import Worksheet.Sheet.Entry

/-!
# Editing sheets

Removing and copying cells, entering many formulas, and asking for a cell.
-/
namespace Worksheet.Sheet

/-! ## Removal -/

/-- Enters the formulas of some cells again, after the values in `updates` have changed.
mirrors the loop of `Spreadsheet.remove` -/
def reenter (s : Sheet) (updates : Updates) : List Position → Sheet × Except EntryError Updates
  | [] => (s, .ok updates)
  | p :: cells =>
    match s.formula? p with
    | none => reenter s updates cells
    | some f =>
      match s.enterAt p f.text with
      | (s, .error e) => (s, .error e)
      | (s, .ok more) => reenter s (updates ∪ more) cells

/-- Drops the record of a cell and enters the formulas that refer to it again. They read zero.
mirrors `Spreadsheet.remove` after the cell is read -/
def removeAt (s : Sheet) (p : Position) : Sheet × Except EntryError Updates :=
  let unlinked := s.unlink p
  reenter { unlinked with cells := unlinked.cells.erase p } ∅ (unlinked.dependents p)

/-- mirrors `Spreadsheet.remove` -/
def remove (s : Sheet) (cell : String) : Sheet × Except EntryError Updates :=
  match readCell cell with
  | .error e => (s, .error e)
  | .ok p => s.removeAt p

/-! ## Copies -/

/-- Enters the formula of `source` for `target`, its references moved along, or removes `target` if
there is no formula to copy.
mirrors `Spreadsheet.copy` after the cells are read -/
def copyAt (s : Sheet) (target source : Position) : Sheet × Except EntryError Updates :=
  match s.formula? source with
  | none => s.removeAt target
  | some f => s.enterAt target (f.tree.text target)

/-- mirrors `Spreadsheet.copy` -/
def copy (s : Sheet) (target source : String) : Sheet × Except EntryError Updates :=
  match readCell target with
  | .error e => (s, .error e)
  | .ok t =>
    match readCell source with
    | .error e => (s, .error e)
    | .ok p => s.copyAt t p

/-! ## Many formulas -/

/-- Enters formulas for cells, in order, up to the first that is refused.
mirrors `Spreadsheet.load` -/
def load (s : Sheet) : List (String × String) → Sheet × Except EntryError Unit
  | [] => (s, .ok ())
  | (cell, text) :: rest =>
    match s.enter cell text with
    | (s, .error e) => (s, .error e)
    | (s, .ok _) => load s rest

/-! ## Questions -/

/-- The value and the formula of a cell; zero and nothing if the text names no cell that is known.
mirrors `Spreadsheet.query` -/
def query (s : Sheet) (cell : String) : Float × String :=
  match Position.read cell with
  | .error _ => (0.0, "")
  | .ok p => (s.value p, ((s.formula? p).map Formula.text).getD "")

end Worksheet.Sheet
