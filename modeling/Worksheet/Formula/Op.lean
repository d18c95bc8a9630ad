/-!
# Operations

The operations of a formula: the four of arithmetic, written between their operands, and the
functions `min` and `max`. A minus with one operand is negation.
-/
namespace Worksheet

inductive Op where
  | add
  | sub
  | mul
  | div
  | min
  | max
  deriving DecidableEq, Repr

namespace Op

def symbol : Op → String
  | add => "+"
  | sub => "-"
  | mul => "*"
  | div => "/"
  | min => "min"
  | max => "max"

/-- Functions are written before their arguments. -/
def isFunction : Op → Bool
  | min | max => true
  | _ => false

/-- mirrors `Op.from_function_name` -/
def ofName? (name : String) : Option Op :=
  if name = "min" then some min else if name = "max" then some max else none

/-- The sums: operations that bind least.
mirrors `Op.from_punct` where `Parser.expr` asks -/
def ofSumSign? : Char → Option Op
  | '+' => some add
  | '-' => some sub
  | _ => none

/-- The products: operations that bind before sums.
mirrors `Op.from_punct` where `Parser.term` asks -/
def ofProductSign? : Char → Option Op
  | '*' => some mul
  | '/' => some div
  | _ => none

/-- How strongly a single operand binds.
mirrors `MAX_PREC` -/
def strongest : Nat := 100

/-- How strongly an operation binds its operands.
mirrors `Op.prec` -/
def strength : Op → Nat
  | add | sub => 10
  | mul | div => 20
  | min | max => strongest

/-! ## Values -/

def notNumber : Float := 0.0 / 0.0

/-- The lesser of two numbers; no number if either is none. -/
def lesser (x y : Float) : Float :=
  if x.isNaN || y.isNaN then notNumber else if y < x then y else x

/-- The greater of two numbers; no number if either is none. -/
def greater (x y : Float) : Float :=
  if x.isNaN || y.isNaN then notNumber else if x < y then y else x

/-- The value of an operation. A formula never gives one a count of operands that it does not
take. -/
def apply : Op → List Float → Float
  | sub, [x] => -x
  | add, [x, y] => x + y
  | sub, [x, y] => x - y
  | mul, [x, y] => x * y
  | div, [x, y] => x / y
  | min, x :: xs => xs.foldl lesser x
  | max, x :: xs => xs.foldl greater x
  | _, _ => notNumber

end Op

end Worksheet
