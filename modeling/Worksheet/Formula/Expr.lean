import Worksheet.Formula.Op
import Worksheet.Grid.Reference

/-!
# Expressions

The tree of a formula: numbers, references, and operations on lists of operands. A tree does not
depend on the cell it stands in; every question about it names that cell. All walks over a tree are
folds.

Results:
* `fold_apply`: a fold of an operation is made of the folds of its operands.
* `induction`: what holds of leaves and goes through operations holds of every tree.
-/
namespace Worksheet

/-- The tree of a formula.
mirrors `Ast` -/
inductive Expr where
  | number (value : Float)
  | reference (target : Reference)
  | apply (op : Op) (operands : List Expr)
  deriving BEq, Repr, Inhabited

namespace Expr

/-! ## Folds -/

section
variable {β : Type} (number : Float → β) (reference : Reference → β) (apply : Op → List β → β)

mutual

/-- The value that a tree has when its three kinds of node have the given meanings.
mirrors `Ast.fold`, where the meanings are the methods of an `AstVisitor` -/
def fold : Expr → β
  | .number x => number x
  | .reference r => reference r
  | .apply op operands => apply op (foldEach operands)

def foldEach : List Expr → List β
  | [] => []
  | e :: es => fold e :: foldEach es

end

theorem foldEach_eq_map (es : List Expr) :
    foldEach number reference apply es = es.map (fold number reference apply) := by
  induction es with
  | nil => rfl
  | cons e es ih => simp only [foldEach, List.map_cons, ih]

@[simp] theorem fold_number (x : Float) : fold number reference apply (.number x) = number x := rfl

@[simp] theorem fold_reference (r : Reference) :
    fold number reference apply (.reference r) = reference r := rfl

@[simp] theorem fold_apply (op : Op) (operands : List Expr) :
    fold number reference apply (.apply op operands) =
      apply op (operands.map (fold number reference apply)) := by
  simp only [fold, foldEach_eq_map]

end

/-! ## Induction -/

mutual

theorem induction {P : Expr → Prop} (hnumber : ∀ x, P (.number x))
    (hreference : ∀ r, P (.reference r))
    (happly : ∀ op operands, (∀ e ∈ operands, P e) → P (.apply op operands)) : ∀ e : Expr, P e
  | .number x => hnumber x
  | .reference r => hreference r
  | .apply op operands => happly op operands (inductionEach hnumber hreference happly operands)

theorem inductionEach {P : Expr → Prop} (hnumber : ∀ x, P (.number x))
    (hreference : ∀ r, P (.reference r))
    (happly : ∀ op operands, (∀ e ∈ operands, P e) → P (.apply op operands)) :
    ∀ (es : List Expr), ∀ e ∈ es, P e
  | [] => fun _ h => nomatch h
  | e :: es =>
    have head := induction hnumber hreference happly e
    have tail := inductionEach hnumber hreference happly es
    fun _ h => (List.mem_cons.mp h).elim (fun same => same ▸ head) (tail _)

end

/-! ## Walks -/

/-- The number of levels of a tree.
mirrors the depth of a `Node` -/
def height : Expr → Nat :=
  fold (fun _ => 1) (fun _ => 1) fun _ heights => 1 + heights.foldl max 0

/-- The cells that a formula at `base` refers to, left to right with repeats. References that lead
off the grid refer to nothing.
mirrors `Ast.references` -/
def references (base : Position) : Expr → List Position :=
  fold (fun _ => []) (fun r => (r.resolve? base).toList) fun _ lists => lists.flatten

/-- The value of a formula at `base`, where the operations mean `operators` and each cell has the
value that `read` gives. A reference off the grid is worth zero.
mirrors the fold of `Evaluator`, which also links cells as `Sheet.link` does -/
def value (operators : Op → List Float → Float) (base : Position) (read : Position → Float) :
    Expr → Float :=
  fold id (fun r => ((r.resolve? base).map read).getD 0) operators

end Expr

end Worksheet
