import Worksheet.Decimal.Nearest
import Worksheet.Formula.Error
import Worksheet.Formula.Op
import Worksheet.Grid.Reference

/-!
# Tokens

A formula is a row of tokens with blanks between them: numerals, words and single marks. A word is
the name of a function or else a reference. A text is cut into lexemes from the left, always the
longest, and a lexeme that is no token refuses the whole text.

Results:
* `Lexeme.text_append_scan`: cutting off a lexeme loses and invents nothing.
* `Lexeme.length_scan_le`: a lexeme takes at least one character.
-/
namespace Worksheet

/-- What a token says.
mirrors `TokenKind`; that the tokens end needs no token here -/
inductive Token.Kind where
  | number (value : Float)
  | function (op : Op)
  | reference (target : Reference)
  | mark (c : Char)
  deriving DecidableEq, Repr

structure Token where
  kind : Token.Kind
  text : String
  deriving DecidableEq, Repr

/-- mirrors `PUNCTUATION` -/
def marks : List Char := ['+', '-', '*', '/', '(', ')', ',']

/-- The characters of words.
mirrors `word_re` -/
def isWordChar (c : Char) : Bool := c.isAlphanum || c = '_' || c = '$'

/-! ## Lexemes -/

inductive Lexeme where
  | numeral (n : Decimal.Numeral)
  | word (cs : List Char)
  | mark (c : Char)
  | stray (c : Char)
  deriving DecidableEq, Repr

namespace Lexeme

def text : Lexeme → List Char
  | numeral n => n.text
  | word cs => cs
  | mark c | stray c => [c]

/-- The lexeme of a text that begins with `c`, which is no blank, and the text after it. -/
def scan (c : Char) (cs : List Char) : Lexeme × List Char :=
  if c.isDigit then
    (numeral (Decimal.Numeral.scan (c :: cs)).1, (Decimal.Numeral.scan (c :: cs)).2)
  else if isWordChar c then (word (c :: cs.takeWhile isWordChar), cs.dropWhile isWordChar)
  else if c ∈ marks then (mark c, cs)
  else (stray c, cs)

theorem text_append_scan (c : Char) (cs : List Char) :
    (scan c cs).1.text ++ (scan c cs).2 = c :: cs := by
  unfold scan
  split
  · exact Decimal.Numeral.text_append_scan _
  · split
    · simp [text]
    · split <;> rfl

theorem text_scan_ne_nil (c : Char) (cs : List Char) : (scan c cs).1.text ≠ [] := by
  unfold scan
  split
  · next h =>
    intro empty
    simp only [text, Decimal.Numeral.text, List.append_eq_nil_iff] at empty
    exact Decimal.Numeral.scan_whole_ne_nil cs h empty.1
  · split
    · simp [text]
    · split <;> simp [text]

theorem length_scan_le (c : Char) (cs : List Char) : (scan c cs).2.length ≤ cs.length := by
  have sum := congrArg List.length (text_append_scan c cs)
  have pos := List.length_pos_iff.mpr (text_scan_ne_nil c cs)
  simp only [List.length_append, List.length_cons] at sum
  omega

/-- The token of a lexeme in a formula at `base`. The place of a stray character is `offset`. -/
def token (base : Position) (offset : Nat) (l : Lexeme) : Except FormulaError Token :=
  let text := String.ofList l.text
  match l with
  | numeral n => .ok ⟨.number n.value.toFloat, text⟩
  | word _ =>
    match Op.ofName? text with
    | some op => .ok ⟨.function op, text⟩
    | none =>
      match Reference.read base text with
      | .ok r => .ok ⟨.reference r, text⟩
      | .error e => .error (.badReference e)
  | mark c => .ok ⟨.mark c, text⟩
  | stray c => .error (.unexpectedChar c offset)

end Lexeme

/-! ## Scanning -/

def byteCount (cs : List Char) : Nat := (String.ofList cs).utf8ByteSize

namespace Token

/-- The tokens `done`, newest first, and those of the rest of a text, which begins `offset` bytes
into the whole.
mirrors the loop of `scan` -/
def scanFrom (base : Position) (offset : Nat) (done : List Token) :
    List Char → Except FormulaError (List Token)
  | [] => .ok done.reverse
  | c :: cs =>
    if Text.isBlank c then scanFrom base (offset + c.utf8Size) done cs
    else
      match (Lexeme.scan c cs).1.token base offset with
      | .error e => .error e
      | .ok t =>
        scanFrom base (offset + byteCount (Lexeme.scan c cs).1.text) (t :: done)
          (Lexeme.scan c cs).2
termination_by cs => cs.length
decreasing_by
  · simp
  · have := Lexeme.length_scan_le c cs; simp only [List.length_cons]; omega

/-- The tokens of a formula at `base`.
mirrors `scan` -/
def scan (base : Position) (text : String) : Except FormulaError (List Token) :=
  scanFrom base 0 [] text.toList

def isMark (c : Char) (t : Token) : Bool := t.kind = .mark c

/-- The operation of a token, where `sign?` gives that of a mark.
mirrors `Parser.peek_op` -/
def sign? (sign? : Char → Option Op) (t : Token) : Option Op :=
  match t.kind with
  | .mark c => sign? c
  | _ => none

end Token

end Worksheet
