import Worksheet.Sheet.Basic

/-!
# Dumps

The formulas of a sheet in an order in which they can be entered again. A cell that refers to
nothing has depth zero; any other is one deeper than the deepest cell it refers to. A dump goes by
depth, and by the order of cells within one depth.
-/
namespace Worksheet.Sheet

/-- The depth of a cell, where the cells that it refers to have the given depths. -/
def depthFrom (s : Sheet) (depths : PositionMap Nat) (p : Position) : Nat :=
  ((s.references p).map fun q => depths.getD q 0 + 1).foldl max 0

/-- The depths of all cells with a record. -/
def depths (s : Sheet) : PositionMap Nat :=
  (s.links.order (.ofList s.cells.keys Position.order)).foldl
    (fun depths p => depths.insert p (s.depthFrom depths p)) ∅

/-- The cells with formulas and these formulas' texts, in order. -/
def formulas (s : Sheet) : List (Position × String) :=
  s.cells.toList.filterMap fun (p, c) => c.formula.map fun f => (p, f.text)

/-- The formulas of a sheet in an order in which they can be entered again: `formulas` is in the
order of cells, and sorting by depth keeps that order within one depth. -/
def dump (s : Sheet) : List (Position × String) :=
  let depths := s.depths
  s.formulas.mergeSort fun a b => depths.getD a.1 0 ≤ depths.getD b.1 0

/-- A dump with the names of the cells.
mirrors `Spreadsheet.dump` -/
def dumpPairs (s : Sheet) : List (String × String) := s.dump.map fun (p, text) => (p.name, text)

end Worksheet.Sheet
