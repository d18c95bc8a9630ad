import Worksheet.Grid.Position

/-!
# Commands

A line is a command: a word and its arguments, or an assignment `CELL = FORMULA`. Blank lines and
lines that begin with `#` are no commands.
-/
namespace Worksheet

inductive Command where
  | clear
  | copy (target source : String)
  | delete (cell : String)
  | dump
  | enter (cell formula : String)
  | load (path : String)
  | save (path : String)
  | query (cell : String)
  | help
  deriving DecidableEq, Repr

inductive UsageError where
  | argumentCount (command : String) (count : Nat)
  | noFile (command : String)
  | noFormula
  | unknown (command : String)
  deriving DecidableEq, Repr

def UsageError.complaint : UsageError → String
  | argumentCount command count =>
    "command " ++ command ++ " needs " ++ toString count ++ " argument(s)"
  | noFile command => "command " ++ command ++ " needs a file"
  | noFormula => "command eval needs a cell and a formula"
  | unknown command => "invalid command " ++ command

def UsageError.message (e : UsageError) : String := e.complaint ++ " (try 'help')"

namespace Command

/-! ## Assignments -/

def markerText (fixed : Bool) : List Char := if fixed then ['$'] else []

/-- The address that a text begins with, and the text after it. Its numeral is not looked at. -/
def takeAddress? (cs : List Char) : Option (List Char × List Char) :=
  let (colFixed, cs) := Address.takeMarker cs
  match cs with
  | [] => none
  | letter :: cs =>
    let (rowFixed, cs) := Address.takeMarker cs
    let digits := cs.takeWhile Char.isDigit
    if letter.isAlpha ∧ digits ≠ [] then
      some (markerText colFixed ++ letter :: (markerText rowFixed ++ digits),
        cs.dropWhile Char.isDigit)
    else none

/-- The cell and the formula of an assignment. The formula has to end the line it begins on.
mirrors `assignment_re` -/
def assignment? (cs : List Char) : Option (List Char × List Char) :=
  match takeAddress? cs with
  | none => none
  | some (cell, rest) =>
    match Text.trimLeft rest with
    | [] => none
    | c :: formula => if c = '=' ∧ '\n' ∉ formula then some (cell, formula) else none

/-! ## Words -/

/-- The arguments of a command, if there are as many as it needs.
mirrors `expect_args` -/
def arguments (command : String) (rest : String) (count : Nat) : Except UsageError (List String) :=
  let words := Text.words rest
  if words.length = count then .ok words else .error (.argumentCount command count)

/-- The command with a given name, where `rest` stands after the name. -/
def ofName (name rest : String) : Except UsageError Command :=
  match name with
  | "clear" => (arguments name rest 0).map fun _ => clear
  | "dump" => (arguments name rest 0).map fun _ => dump
  | "help" => .ok help
  | "copy" =>
    match Text.words rest with
    | [target, source] => .ok (copy target source)
    | _ => .error (.argumentCount name 2)
  | "delete" =>
    match Text.words rest with
    | [cell] => .ok (delete cell)
    | _ => .error (.argumentCount name 1)
  | "query" =>
    match Text.words rest with
    | [cell] => .ok (query cell)
    | _ => .error (.argumentCount name 1)
  | "load" => if rest = "" then .error (.noFile name) else .ok (load rest)
  | "save" => if rest = "" then .error (.noFile name) else .ok (save rest)
  | "eval" =>
    match Text.cutAtBlank rest with
    | none => .error .noFormula
    | some (cell, formula) => .ok (enter cell (Text.trim formula))
  | other => .error (.unknown other)

/-- The command of a line, if it holds one.
mirrors `Command.parse` -/
def parse (line : String) : Except UsageError (Option Command) :=
  match Text.trimChars line.toList with
  | [] => .ok none
  | c :: cs =>
    if c = '#' then .ok none
    else
      match assignment? (c :: cs) with
      | some (cell, formula) =>
        .ok (some (enter (String.ofList cell) (String.ofList (Text.trimChars formula))))
      | none =>
        let line := String.ofList (c :: cs)
        let (name, rest) := (Text.cutAtBlank line).getD (line, "")
        (ofName name (Text.trim rest)).map some

end Command

end Worksheet
