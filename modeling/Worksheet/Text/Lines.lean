/-!
# Lines

Input taken line by line. A line ends at a line feed, or at a carriage return and a line feed; the
last line may lack its end. A line whose bytes are not UTF-8 has no text.
-/
namespace Worksheet.Text

/-- The line that stood before a line feed: a carriage return at its end belongs to the line end. -/
def withoutReturn (line : List UInt8) : List UInt8 :=
  if line.getLast? = some 0x0D then line.dropLast else line

def decode? (bytes : List UInt8) : Option String := String.fromUTF8? ⟨bytes.toArray⟩

/-- The lines of an input, each as its text or as `none` if it is not text. -/
def linesOf (input : List UInt8) : List (Option String) :=
  let pieces := input.splitOn 0x0A
  let last := match pieces.getLast? with
    | none | some [] => []
    | some piece => [piece]
  (pieces.dropLast.map withoutReturn ++ last).map decode?

def lines (input : ByteArray) : List (Option String) := linesOf input.toList

end Worksheet.Text
