/-!
# Blanks

The characters of the Unicode property White_Space, and the ways text is cut at them: trimmed at
both ends, stripped of every blank, split into words, and cut at the first blank.

Results:
* `strip_append`: stripping goes through concatenation.
-/
namespace Worksheet.Text

/-- The code points of White_Space, as closed ranges in rising order. -/
def blankRanges : List (Nat × Nat) :=
  [(0x0009, 0x000D), (0x0020, 0x0020), (0x0085, 0x0085), (0x00A0, 0x00A0), (0x1680, 0x1680),
   (0x2000, 0x200A), (0x2028, 0x2029), (0x202F, 0x202F), (0x205F, 0x205F), (0x3000, 0x3000)]

def isBlank (c : Char) : Bool :=
  blankRanges.any fun r => r.1 ≤ c.toNat && c.toNat ≤ r.2

/-! ## Lists of characters -/

/-- The text without the blanks it begins with. -/
def trimLeft (cs : List Char) : List Char := cs.dropWhile isBlank

/-- The text without the blanks at its two ends. -/
def trimChars (cs : List Char) : List Char := (trimLeft (trimLeft cs).reverse).reverse

/-- The text without any of its blanks. -/
def stripChars (cs : List Char) : List Char := cs.filter fun c => !isBlank c

/-- The words of a text: its longest runs without a blank, in order. -/
def wordsOf (cs : List Char) : List (List Char) :=
  (cs.splitOnP isBlank).filter fun w => !w.isEmpty

/-- The text before its first blank and the text after that blank, if it has one. -/
def cutChars (cs : List Char) : Option (List Char × List Char) :=
  match cs.dropWhile fun c => !isBlank c with
  | [] => none
  | _ :: rest => some (cs.takeWhile fun c => !isBlank c, rest)

theorem strip_append (cs ds : List Char) : stripChars (cs ++ ds) = stripChars cs ++ stripChars ds :=
  List.filter_append ..

/-! ## Strings -/

def trim (s : String) : String := String.ofList (trimChars s.toList)

def strip (s : String) : String := String.ofList (stripChars s.toList)

def words (s : String) : List String := (wordsOf s.toList).map String.ofList

def cutAtBlank (s : String) : Option (String × String) :=
  (cutChars s.toList).map fun p => (String.ofList p.1, String.ofList p.2)

end Worksheet.Text
