import Worksheet.Files.Store
import Worksheet.Json.Pairs
import Worksheet.Json.Value

/-!
# Dump files

The formulas of a sheet are kept in a file as a JSON list of pairs of texts. A file that is too
large is not read.
-/
namespace Worksheet

inductive DumpError where
  | file (cause : FileError)
  /-- The text is not a list of pairs of texts. -/
  | notPairs
  deriving DecidableEq, Repr

namespace DumpFile

/-- The greatest number of bytes of a dump file that is read.
mirrors `MAX_DUMP_FILE_BYTES` -/
def maxSize : Nat := 16 * 1024 * 1024

def textOf (pairs : List (String × String)) : String := (Json.ofPairs pairs).pretty ++ "\n"

/-- The pairs that the bytes of the file at a path stand for.
mirrors `read_dump` after the file is read, and `parse_dump` -/
def pairsOf (path : String) (bytes : ByteArray) : Except DumpError (List (String × String)) :=
  if maxSize < bytes.size then .error (.file (.tooLarge path bytes.size maxSize))
  else
    match String.fromUTF8? bytes with
    | none => .error (.file .notText)
    | some text =>
      match Json.readPairs text with
      | none => .error .notPairs
      | some pairs => .ok pairs

variable {m : Type → Type} [Monad m] [FileAccess m]

/-- mirrors `read_dump` -/
def read (path : String) : m (Except DumpError (List (String × String))) := do
  match ← FileAccess.read path with
  | .error e => return .error (.file e)
  | .ok bytes => return pairsOf path bytes

/-- mirrors `write_dump` -/
def write (path : String) (pairs : List (String × String)) : m (Except DumpError Unit) := do
  match ← FileAccess.write path (textOf pairs).toUTF8 with
  | .error e => return .error (.file e)
  | .ok _ => return .ok ()

end DumpFile

end Worksheet
