import Worksheet.Decimal.Layout
import Worksheet.Formula.Expr

/-!
# The text of an expression

An expression is written without blanks except after the commas of an argument list, and with
parentheses only where the operands would otherwise be taken apart: around the left operand that
binds less, the right operand that does not bind more, and the operand of a negation that is no
single operand.
-/
namespace Worksheet.Expr

/-- The text of an expression and how strongly it holds together.
mirrors `Rendered` -/
structure Written where
  text : String
  strength : Nat
  deriving DecidableEq, Repr

namespace Written

/-- A text that holds together by itself. -/
def single (text : String) : Written := ⟨text, Op.strongest⟩

/-- The text, in parentheses if `wrap`.
mirrors `Rendered.wrapped` -/
def within (w : Written) (wrap : Bool) : String := if wrap then "(" ++ w.text ++ ")" else w.text

def call (op : Op) (operands : List Written) : String :=
  op.symbol ++ "(" ++ ", ".intercalate (operands.map text) ++ ")"

/-- The text of an operation from those of its operands.
mirrors `TextRenderer.visit_app` -/
def operation (op : Op) (operands : List Written) : Written :=
  match operands with
  | [x] =>
    if op = .sub then single ("-" ++ x.within (x.strength < Op.strongest))
    else ⟨call op [x], op.strength⟩
  | [x, y] =>
    if op.isFunction then ⟨call op [x, y], op.strength⟩
    else ⟨x.within (x.strength < op.strength) ++ op.symbol ++ y.within (y.strength ≤ op.strength),
      op.strength⟩
  | operands => ⟨call op operands, op.strength⟩

end Written

/-- How infinity is written in a formula: as a numeral that is too large.
mirrors `OVERFLOW_LITERAL` -/
def overflowText : String := "1e999"

/-- The text of a number in a formula.
mirrors `TextRenderer.visit_num` -/
def numberText (x : Float) : String :=
  if x == 1.0 / 0.0 then overflowText else Layout.plain.text x

/-- The text of a formula at `base` and how strongly it holds together.
mirrors the fold of `TextRenderer` -/
def written (base : Position) : Expr → Written :=
  fold (fun x => .single (numberText x)) (fun r => .single (r.text base)) Written.operation

/-- mirrors `Ast.to_text` -/
def text (e : Expr) (base : Position) : String := (e.written base).text

end Worksheet.Expr
