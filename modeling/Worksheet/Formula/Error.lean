import Worksheet.Grid.Position

/-!
# Why a text is no formula

The causes for which a formula is refused, and the message for each.
-/
namespace Worksheet

/-- The greatest height of a formula's tree, and the greatest number of operands that may be open at
once while a formula is read.
mirrors `MAX_DEPTH` -/
def maxDepth : Nat := 256

/-- What could have stood where a formula goes wrong. -/
inductive Expected where
  | operand
  | mark (c : Char)
  deriving DecidableEq, Repr

/-- Why a text is no formula.
mirrors `ParseError` -/
inductive FormulaError where
  /-- A word that is neither a function nor the address of a cell. -/
  | badReference (address : BadAddress)
  /-- A character that no token begins with, and its place in bytes. -/
  | unexpectedChar (char : Char) (offset : Nat)
  /-- A token that cannot stand where it does. -/
  | unexpectedToken (found : String) (expected : Expected)
  /-- More levels than a formula may have. -/
  | tooDeep
  /-- A token after the end of a formula. -/
  | trailing (found : String)
  deriving DecidableEq, Repr

def Expected.message : Expected → String
  | operand => "a number, cell reference, function or '('"
  | mark c => "'" ++ c.toString ++ "'"

def FormulaError.message : FormulaError → String
  | badReference address => address.message
  | unexpectedChar char offset =>
    "unexpected character '" ++ char.toString ++ "' at offset " ++ toString offset
  | unexpectedToken found expected =>
    "unexpected token '" ++ found ++ "': expected " ++ expected.message
  | tooDeep => "formula nested deeper than " ++ toString maxDepth ++ " levels"
  | trailing found => "unexpected '" ++ found ++ "' after end of expression"

end Worksheet
