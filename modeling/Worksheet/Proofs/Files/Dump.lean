import Worksheet.Files.Dump
import Worksheet.Proofs.Files.Store
import Worksheet.Proofs.Json.Pairs

/-!
# Dump files that were written

Only the reading of a dump file looks at its size. A file that was written is therefore read as the
pairs that were written if its text is not too long, and otherwise it is refused for its size,
however it was written.

Results:
* `DumpFile.pairsOf_textOf`: what the bytes of a written text stand for.
* `DumpFile.read_of_write`: what is read after a dump file was written.
* `DumpFile.length_lt_size_textOf`: a dump file is larger than the formula in it.
-/
namespace Worksheet

theorem fromUTF8?_toUTF8 (text : String) : String.fromUTF8? text.toUTF8 = some text := by
  rw [String.toUTF8_eq_toByteArray, String.fromUTF8?, dif_pos text.isValidUTF8]
  rfl

theorem length_le_utf8ByteSize (cs : List Char) : cs.length ≤ (String.ofList cs).utf8ByteSize := by
  induction cs with
  | nil => exact Nat.zero_le _
  | cons c cs ih =>
    have split : String.ofList (c :: cs) = String.singleton c ++ String.ofList cs := by
      rw [← List.singleton_append, String.ofList_append, String.singleton_eq_ofList]
    have pos := c.utf8Size_pos
    rw [split, String.utf8ByteSize_append, String.utf8ByteSize_singleton, List.length_cons]
    omega

namespace DumpFile

variable {path : String} {pairs : List (String × String)} {store written later : FileStore}

/-- What reading a file of some pairs gives: the pairs, unless their text is too long. -/
def readBack (path : String) (pairs : List (String × String)) :
    Except DumpError (List (String × String)) :=
  if maxSize < (textOf pairs).utf8ByteSize then
    .error (.file (.tooLarge path (textOf pairs).utf8ByteSize maxSize))
  else .ok pairs

theorem pairsOf_textOf (path : String) (pairs : List (String × String)) :
    pairsOf path (textOf pairs).toUTF8 = readBack path pairs := by
  unfold pairsOf readBack
  rw [fromUTF8?_toUTF8]
  simp only [textOf, Json.readPairs_ofPairs]
  rfl

theorem run_read (path : String) (store : FileStore) :
    (DumpFile.read path : StateM FileStore _).run store =
      (match store.read path with
        | .error e => .error (.file e)
        | .ok bytes => pairsOf path bytes, store) := by
  have read : (FileAccess.read path : StateM FileStore _).run store = (store.read path, store) := rfl
  rw [DumpFile.read, StateT.run_bind, read]
  cases store.read path <;> rfl

theorem run_write (path : String) (pairs : List (String × String)) (store : FileStore) :
    (DumpFile.write path pairs : StateM FileStore _).run store =
      match store.write path (textOf pairs).toUTF8 with
      | .error e => (.error (.file e), store)
      | .ok written => (.ok (), written) := by
  have write : (FileAccess.write path (textOf pairs).toUTF8 : StateM FileStore _).run store =
      match store.write path (textOf pairs).toUTF8 with
      | .error e => (.error e, store)
      | .ok written => (.ok (), written) := by
    simp only [FileAccess.write, StateT.run_bind, StateT.run_get, pure_bind]
    cases store.write path (textOf pairs).toUTF8 <;> rfl
  rw [DumpFile.write, StateT.run_bind, write]
  cases store.write path (textOf pairs).toUTF8 <;> rfl

theorem write_of_run_write
    (h : (DumpFile.write path pairs : StateM FileStore _).run store = (.ok (), written)) :
    store.write path (textOf pairs).toUTF8 = .ok written := by
  rw [run_write] at h
  cases done : store.write path (textOf pairs).toUTF8 with
  | error e => rw [done] at h; cases h
  | ok _ => rw [done] at h; cases h; rfl

theorem exists_write_empty (pairs : List (String × String)) :
    ∃ written, (DumpFile.write "dump.json" pairs : StateM FileStore _).run .empty =
      (.ok (), written) := by
  have leads : FileStore.empty.resolve true "dump.json" = .ok ["dump.json"] := by decide +kernel
  have free : FileStore.empty.find? ["dump.json"] = none := rfl
  rw [run_write, FileStore.write, leads]
  simp only [free]
  exact ⟨_, rfl⟩

/-- **Dump files.** After a dump file was written, and as long as its file is not touched, the pairs
that were written are read, unless their text is too long. -/
theorem read_of_write
    (h : (DumpFile.write path pairs : StateM FileStore _).run store = (.ok (), written))
    (untouched : later.read path = written.read path) :
    (DumpFile.read path : StateM FileStore _).run later = (readBack path pairs, later) := by
  rw [run_read, untouched, FileStore.read_of_write (write_of_run_write h)]
  simp only [pairsOf_textOf]

/-! ## Sizes -/

theorem length_lt_size_textOf (name text : String) :
    text.length < (textOf [(name, text)]).utf8ByteSize := by
  have pair : Json.print 1 (.list [.text name, .text text]) =
      Json.enclose '[' ']' 1 [Json.quote name, Json.quote text] := Json.print_list 1 _
  have all : (textOf [(name, text)]).toList =
      Json.enclose '[' ']' 0 [Json.print 1 (.list [.text name, .text text])] ++ ['\n'] := by
    rw [textOf, String.toList_append, Json.pretty, String.toList_ofList, Json.ofPairs,
      Json.print_list]
    rfl
  have quoted : text.toList.length < (Json.quote text).length := by
    have escaped := Json.length_le_flatMap_escape text.toList
    rw [Json.quote, List.length_cons, List.length_append]
    omega
  have contained : (Json.quote text).length ≤ (textOf [(name, text)]).toList.length := by
    simp only [all, pair, Json.enclose, List.intercalate_singleton, List.intercalate_cons_cons,
      List.length_append, List.length_cons]
    omega
  have bytes := length_le_utf8ByteSize (textOf [(name, text)]).toList
  rw [String.ofList_toList] at bytes
  rw [← String.length_toList]
  omega

end DumpFile

end Worksheet
