import Worksheet.Formula.Expr
import Worksheet.Formula.Error
import Worksheet.Sheet.Links

/-!
# Sheets

A sheet keeps a record of every cell that has a formula or that a formula refers to: its value, its
formula, and the cells whose formulas refer to it. What the operations mean belongs to the sheet, so
nothing about sheets depends on it.

Results:
* `cells_update`, `cells_adjust`: what changing one record does to all records.
* `links`: the dependents of the cells form links.
-/
namespace Worksheet

/-- The formula of a cell: its text without blanks, and its tree. -/
structure Formula where
  text : String
  tree : Expr

/-- The record of a cell.
mirrors `CellInfo` -/
structure Cell where
  value : Float
  formula : Option Formula
  dependents : PositionSet

/-- The record of a cell that nothing is known of. -/
def Cell.empty : Cell := ⟨0.0, none, ∅⟩

/-- A sheet: its name, what the operations mean in it, and its records.
mirrors `Spreadsheet`; the meaning of the operations is `Op.apply` there -/
structure Sheet where
  name : String
  operators : Op → List Float → Float
  cells : PositionMap Cell

/-- The new values of the cells that an entry changed. -/
abbrev Updates := PositionMap Float

/-! ## Errors -/

/-- Why a sheet refuses an entry.
mirrors `SheetError` -/
inductive EntryError where
  /-- The text is no formula. -/
  | badFormula (cause : FormulaError)
  /-- The text names no cell. -/
  | badCell (text : String)
  /-- The formula for `cell` refers to `via`, which depends on `cell`. -/
  | circular (cell via : Position)
  deriving DecidableEq, Repr

namespace EntryError

def message : EntryError → String
  | badFormula cause => "syntax error: " ++ cause.message
  | badCell text => "bad cell id '" ++ text ++ "'"
  | circular cell via =>
    "circular reference: " ++ cell.name ++ " refers to " ++ via.name ++ ", which depends on " ++
      cell.name

def code : EntryError → String
  | badFormula _ | badCell _ => "SYNTAX"
  | circular _ _ => "CIRCULAR_REF"

end EntryError

namespace Sheet

/-- A sheet without records, in which the operations mean what they always do. -/
def new (name : String) : Sheet := ⟨name, Op.apply, ∅⟩

def clear (s : Sheet) : Sheet := { s with cells := ∅ }

/-! ## Looking at cells -/

/-- The record of a cell, the empty one if there is none. -/
def cell (s : Sheet) (p : Position) : Cell := s.cells[p]?.getD .empty

/-- The value of a cell; zero if nothing is known of it. -/
def value (s : Sheet) (p : Position) : Float := (s.cell p).value

def formula? (s : Sheet) (p : Position) : Option Formula := (s.cell p).formula

/-- The cells whose formulas refer to a cell, in order. -/
def dependents (s : Sheet) (p : Position) : List Position := (s.cell p).dependents.toList

def references (s : Sheet) (p : Position) : List Position :=
  match s.formula? p with
  | none => []
  | some f => f.tree.references p

theorem dependents_eq_nil (s : Sheet) (p : Position) (h : p ∉ s.cells.keys) :
    s.dependents p = [] := by
  have h : s.cells[p]? = none := by simpa using h
  simp [dependents, cell, h, Cell.empty]

def links (s : Sheet) : Links where
  cells := s.cells.keys
  next := s.dependents
  next_eq_nil := s.dependents_eq_nil

/-! ## Changing records -/

/-- Changes the record of a cell, a new one if there is none.
mirrors a change through `Spreadsheet.cell_mut` -/
def update (s : Sheet) (p : Position) (f : Cell → Cell) : Sheet :=
  { s with cells := s.cells.insert p (f (s.cell p)) }

/-- Changes the record of a cell, if there is one. -/
def adjust (s : Sheet) (p : Position) (f : Cell → Cell) : Sheet :=
  { s with cells := s.cells.modify p f }

theorem cells_update (s : Sheet) (p q : Position) (f : Cell → Cell) :
    (s.update p f).cells[q]? = if p = q then some (f (s.cell p)) else s.cells[q]? := by
  simp only [update, Std.ExtTreeMap.getElem?_insert, Std.LawfulEqCmp.compare_eq_iff_eq]

theorem cells_adjust (s : Sheet) (p q : Position) (f : Cell → Cell) :
    (s.adjust p f).cells[q]? = if p = q then s.cells[p]?.map f else s.cells[q]? := by
  simp only [adjust, Std.ExtTreeMap.getElem?_modify, Std.LawfulEqCmp.compare_eq_iff_eq]

end Sheet

end Worksheet
