import Worksheet.Formula.Parse
import Worksheet.Sheet.Basic

/-!
# Entering formulas

A formula that is entered replaces the one of its cell; then the cell and all cells that depend on
it are evaluated, each once and after those of them that it refers to. A formula that is malformed,
or that refers to a cell that depends on the formula's own, is refused and changes nothing.

Evaluating a formula links its cell to the cells it refers to, and makes records for those that have
none.
-/
namespace Worksheet.Sheet

/-! ## Links of a formula -/

/-- Makes `p` a dependent of some cells.
mirrors `Evaluator.visit_ref`, for all references at once -/
def link (s : Sheet) (p : Position) (targets : List Position) : Sheet :=
  targets.foldl (fun s q => s.update q fun c => { c with dependents := c.dependents.insert p }) s

/-- Makes `p` no dependent of the cells that its formula refers to.
mirrors `Spreadsheet.unlink` -/
def unlink (s : Sheet) (p : Position) : Sheet :=
  (s.references p).foldl
    (fun s q => s.adjust q fun c => { c with dependents := c.dependents.erase p }) s

/-! ## Evaluation -/

/-- Evaluates the formula of a cell and keeps its value. A cell without one is worth zero.
mirrors `Spreadsheet.evaluate_cell` -/
def evaluate (s : Sheet) (p : Position) : Sheet × Float :=
  let value := match s.formula? p with
    | none => 0.0
    | some f => f.tree.value s.operators p s.value
  ((s.link p (s.references p)).adjust p fun c => { c with value := value }, value)

/-- Evaluates some cells one after the other.
mirrors the loop of `Spreadsheet.recompute` -/
def evaluateEach (s : Sheet) (cells : List Position) : Sheet × Updates :=
  cells.foldl
    (fun (s, updates) p =>
      let (s, value) := s.evaluate p
      (s, updates.insert p value))
    (s, ∅)

/-- Evaluates a cell and all that depend on it.
mirrors `Spreadsheet.recompute` -/
def recompute (s : Sheet) (p : Position) : Sheet × Updates := s.evaluateEach (s.links.cascade p)

/-! ## Entry -/

/-- A cell that a formula for `p` refers to although it depends on `p`, if there is one: the first
that a walk from `p` comes to.
mirrors `Spreadsheet.validate` -/
def clash? (s : Sheet) (p : Position) (tree : Expr) : Option Position :=
  let targets := tree.references p
  (s.links.walk p).find? (· ∈ targets)

/-- Gives a cell a formula in place of the one it has.
mirrors what `Spreadsheet.eval` changes before it recomputes -/
def place (s : Sheet) (p : Position) (f : Formula) : Sheet :=
  (s.unlink p).update p fun c => { c with formula := some f }

/-- Enters a formula for the cell `p`.
mirrors `Spreadsheet.eval` after the cell is read -/
def enterAt (s : Sheet) (p : Position) (text : String) : Sheet × Except EntryError Updates :=
  match Expr.parse p text with
  | .error e => (s, .error (.badFormula e))
  | .ok tree =>
    match s.clash? p tree with
    | some via => (s, .error (.circular p via))
    | none =>
      let (s, updates) := (s.place p ⟨Text.strip text, tree⟩).recompute p
      (s, .ok updates)

/-- mirrors `resolve_id` -/
def readCell (text : String) : Except EntryError Position :=
  match Position.read text with
  | .ok p => .ok p
  | .error e => .error (.badCell e.text)

/-- mirrors `Spreadsheet.eval` -/
def enter (s : Sheet) (cell text : String) : Sheet × Except EntryError Updates :=
  match readCell cell with
  | .error e => (s, .error e)
  | .ok p => s.enterAt p text

end Worksheet.Sheet
