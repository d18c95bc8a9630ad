import Worksheet.Decimal.Layout

/-!
# JSON text

Values are written over several lines, two blanks deeper for every level. In a text the quote, the
backslash and the characters below the blank are escaped; all others stand for themselves.
-/
namespace Worksheet

/-- A JSON value. The fields of an object keep their order. -/
inductive Json where
  | number (x : Float)
  | text (s : String)
  | list (items : List Json)
  | object (fields : List (String × Json))

namespace Json

/-! ## Texts -/

def shortEscape? (c : Char) : Option Char :=
  match c with
  | '"' => some '"'
  | '\\' => some '\\'
  | '\x08' => some 'b'
  | '\x0c' => some 'f'
  | '\n' => some 'n'
  | '\r' => some 'r'
  | '\t' => some 't'
  | _ => none

def escape (c : Char) : List Char :=
  match shortEscape? c with
  | some short => ['\\', short]
  | none =>
    if c.toNat < 0x20 then
      ['\\', 'u', '0', '0', Nat.digitChar (c.toNat / 16), Nat.digitChar (c.toNat % 16)]
    else [c]

def quote (s : String) : List Char := '"' :: (s.toList.flatMap escape ++ ['"'])

/-! ## Values -/

/-- The start of a line at a given depth. -/
def newLine (depth : Nat) : List Char := '\n' :: List.replicate (2 * depth) ' '

/-- Several parts on lines of their own, between two brackets. -/
def enclose (opening closing : Char) (depth : Nat) (parts : List (List Char)) : List Char :=
  match parts with
  | [] => [opening, closing]
  | parts =>
    opening :: (newLine (depth + 1) ++
      ((',' :: newLine (depth + 1)).intercalate parts ++ (newLine depth ++ [closing])))

mutual

def print (depth : Nat) : Json → List Char
  | number x => (Layout.json.text x).toList
  | text s => quote s
  | list items => enclose '[' ']' depth (printItems (depth + 1) items)
  | object fields => enclose '{' '}' depth (printFields (depth + 1) fields)

def printItems (depth : Nat) : List Json → List (List Char)
  | [] => []
  | item :: items => print depth item :: printItems depth items

def printFields (depth : Nat) : List (String × Json) → List (List Char)
  | [] => []
  | (key, value) :: fields =>
    (quote key ++ (':' :: ' ' :: print depth value)) :: printFields depth fields

end

def pretty (value : Json) : String := String.ofList (print 0 value)

/-- A list of pairs of texts, each pair a list of two. -/
def ofPairs (pairs : List (String × String)) : Json :=
  list (pairs.map fun (a, b) => list [text a, text b])

end Json

end Worksheet
