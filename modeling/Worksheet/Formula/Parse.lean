import Worksheet.Formula.Expr
import Worksheet.Formula.Token

/-!
# Reading expressions

Tokens are read from left to right with one token of foresight:

```text
expression := term (('+' | '-') term)*
term       := factor (('*' | '/') factor)*
factor     := number | reference | '-' factor | '(' expression ')'
            | function '(' expression (',' expression)* ')'
```

A row of sums or products is taken from the left. Every factor may hold further factors, but no more
than `maxDepth` of them may be open at once, and that bound is what the reading recurs on.
-/
namespace Worksheet.Expr

abbrev Reader := List Token → Except FormulaError (Expr × List Token)

/-- What stands where a formula goes wrong.
mirrors the found text of `Parser.unexpected` -/
def foundText : List Token → String
  | [] => "<EOF>"
  | t :: _ => t.text

/-- The refusal of the first of some tokens.
mirrors `Parser.unexpected` -/
def refuse {α : Type} (ts : List Token) (expected : Expected) : Except FormulaError α :=
  .error (.unexpectedToken (foundText ts) expected)

/-- Takes a mark off a row of tokens.
mirrors `Parser.expect_punct` -/
def takeMark (c : Char) (ts : List Token) : Except FormulaError (List Token) :=
  match ts with
  | [] => refuse [] (.mark c)
  | t :: rest => if t.isMark c then .ok rest else refuse ts (.mark c)

/-- The tree of an operation, unless it is too high.
mirrors `Node.app` -/
def build (op : Op) (operands : List Expr) : Except FormulaError Expr :=
  if (apply op operands).height ≤ maxDepth then .ok (apply op operands) else .error .tooDeep

/-- Goes on with a row of operations of which `left` has been read. The row ends at a token that is
no sign of it, or after an operand that took no token.
mirrors the loops of `Parser.expr` and `Parser.term`, where every operand takes a token -/
def chainFrom (sign? : Char → Option Op) (operand : Reader) (left : Expr) (ts : List Token) :
    Except FormulaError (Expr × List Token) :=
  match ts with
  | [] => .ok (left, [])
  | t :: rest =>
    match t.sign? sign? with
    | none => .ok (left, t :: rest)
    | some op =>
      match operand rest with
      | .error e => .error e
      | .ok (right, after) =>
        match build op [left, right] with
        | .error e => .error e
        | .ok tree =>
          if after.length ≤ rest.length then chainFrom sign? operand tree after
          else .ok (tree, after)
termination_by ts.length

/-- Takes a row of operations.
mirrors `Parser.expr` and `Parser.term` -/
def chain (sign? : Char → Option Op) (operand : Reader) : Reader := fun ts =>
  match operand ts with
  | .error e => .error e
  | .ok (left, rest) => chainFrom sign? operand left rest

/-- Goes on with a list of arguments of which `done` have been read, newest first. The list ends at
a token that is no comma, or after an argument that took no token.
mirrors the loop of `Parser.primary`, where every argument takes a token -/
def argumentsFrom (argument : Reader) (done : List Expr) (ts : List Token) :
    Except FormulaError (List Expr × List Token) :=
  match ts with
  | [] => .ok (done.reverse, [])
  | t :: rest =>
    if t.isMark ',' then
      match argument rest with
      | .error e => .error e
      | .ok (e, after) =>
        if after.length ≤ rest.length then argumentsFrom argument (e :: done) after
        else .ok ((e :: done).reverse, after)
    else .ok (done.reverse, t :: rest)
termination_by ts.length

/-- Takes the arguments of a function in their parentheses.
mirrors the case of a function in `Parser.primary` -/
def takeArguments (argument : Reader) (ts : List Token) :
    Except FormulaError (List Expr × List Token) := do
  let ts ← takeMark '(' ts
  let (first, ts) ← argument ts
  let (operands, ts) ← argumentsFrom argument [first] ts
  let ts ← takeMark ')' ts
  return (operands, ts)

/-- Takes an expression made of factors.
mirrors `Parser.expr` over `Parser.term` -/
def expressionOf (factor : Reader) : Reader :=
  chain Op.ofSumSign? (chain Op.ofProductSign? factor)

/-- Takes a factor, where `depth` of them may be open at once.
mirrors `Parser.factor` and `Parser.primary`; `depth` is what `nesting` leaves of `MAX_DEPTH` -/
def factor : (depth : Nat) → Reader
  | 0, _ => .error .tooDeep
  | depth + 1, ts =>
    match ts with
    | [] => refuse [] .operand
    | t :: rest =>
      match t.kind with
      | .number x => .ok (number x, rest)
      | .reference r => .ok (reference r, rest)
      | .function op => do
        let (operands, rest) ← takeArguments (expressionOf (factor depth)) rest
        let tree ← build op operands
        return (tree, rest)
      | .mark '(' => do
        let (inner, rest) ← expressionOf (factor depth) rest
        let rest ← takeMark ')' rest
        return (inner, rest)
      | .mark '-' => do
        let (operand, rest) ← factor depth rest
        let tree ← build .sub [operand]
        return (tree, rest)
      | .mark _ => refuse ts .operand

/-- The expression that a row of tokens is.
mirrors `Parser.parse` -/
def ofTokens (ts : List Token) : Except FormulaError Expr :=
  match expressionOf (factor maxDepth) ts with
  | .error e => .error e
  | .ok (tree, []) => .ok tree
  | .ok (_, t :: _) => .error (.trailing t.text)

/-- The expression of a formula at `base`.
mirrors `parse` -/
def parse (base : Position) (text : String) : Except FormulaError Expr :=
  (Token.scan base text).bind ofTokens

end Worksheet.Expr
