import Std.Data.ExtTreeMap

/-!
# Files

What a program sees of files: a path leads to a file or a directory or fails for a reason. A store
holds the files and directories under one directory; `FileAccess` is what a program may do with
files, wherever they are.

Results:
* `find?_put`: after a file is put in its place, it is found there.
-/
namespace Worksheet

inductive FileError where
  | notFound
  | notDirectory
  | isDirectory
  | nameTooLong
  | zeroInName
  /-- The bytes are not UTF-8. -/
  | notText
  /-- The file has more bytes than are read. -/
  | tooLarge (path : String) (size limit : Nat)
  | other (message : String)
  deriving DecidableEq, Repr

def FileError.message : FileError → String
  | notFound => "No such file or directory (os error 2)"
  | notDirectory => "Not a directory (os error 20)"
  | isDirectory => "Is a directory (os error 21)"
  | nameTooLong => "File name too long (os error 36)"
  | zeroInName => "file name contained an unexpected NUL byte"
  | notText => "stream did not contain valid UTF-8"
  | tooLarge path size limit =>
    "Refusing to read " ++ path ++ ": dump file too large (" ++ toString size ++ " bytes, max " ++
      toString limit ++ ")"
  | other message => message

class FileAccess (m : Type → Type) where
  /-- Whether a path leads to something. -/
  isPresent : String → m Bool
  /-- The bytes of a file. -/
  read : String → m (Except FileError ByteArray)
  /-- Makes a file of some bytes, in place of the one there was. -/
  write : String → ByteArray → m (Except FileError Unit)

/-! ## Stores -/

inductive FileEntry where
  | file (bytes : ByteArray)
  | directory

/-- The files and directories under one directory, each by the names that lead to it. Of what lies
elsewhere, the names begin with those of an outer directory. -/
structure FileStore where
  entries : Std.ExtTreeMap (List String) FileEntry compare

namespace FileStore

def maxName : Nat := 255

def maxPath : Nat := 4095

def empty : FileStore := ⟨∅⟩

/-- The names of outer directories: the one above, and the root of all. -/
def isOuter (name : String) : Bool := name = ".." || name = "/"

/-- What stands at the end of some names. No names lead to the directory itself, and outer
directories are always there. -/
def find? (s : FileStore) (names : List String) : Option FileEntry :=
  if names.all isOuter then some .directory else s.entries[names]?

def put (s : FileStore) (names : List String) (bytes : ByteArray) : FileStore :=
  ⟨s.entries.insert names (.file bytes)⟩

theorem find?_put (s : FileStore) {names : List String} (bytes : ByteArray)
    (h : names.all isOuter = false) : (s.put names bytes).find? names = some (.file bytes) := by
  simp [find?, put, h]

/-! ## Paths -/

/-- The directory above the one at the end of `dir`, newest name first. The root is above itself. -/
def above : List String → List String
  | [] => [".."]
  | name :: dir => if name = "/" then [name] else if name = ".." then ".." :: name :: dir else dir

/-- Follows the steps of a path from the directory at the end of `dir`, newest name first. All but
the last step lead through directories. A path that is to be made and ends in `/` names a
directory. -/
def follow (s : FileStore) (making : Bool) (dir : List String) :
    List String → Except FileError (List String)
  | [] => .ok dir.reverse
  | step :: steps =>
    if step = "" ∨ step = "." then follow s making dir steps
    else if step = ".." then follow s making (above dir) steps
    else if making ∧ steps ≠ [] ∧ steps.all (· = "") then .error .isDirectory
    else if maxName < step.utf8ByteSize then .error .nameTooLong
    else if steps = [] then .ok (step :: dir).reverse
    else
      match s.find? (step :: dir).reverse with
      | some .directory => follow s making (step :: dir) steps
      | some (.file _) => .error .notDirectory
      | none => .error .notFound

def resolve (s : FileStore) (making : Bool) (path : String) : Except FileError (List String) :=
  if '\x00' ∈ path.toList then .error .zeroInName
  else if maxPath < path.utf8ByteSize then .error .nameTooLong
  else if path = "" then .error .notFound
  else
    s.follow making (if path.startsWith "/" then ["/"] else [])
      ((path.toList.splitOn '/').map String.ofList)

def look (s : FileStore) (path : String) : Except FileError FileEntry :=
  match s.resolve false path with
  | .error e => .error e
  | .ok names =>
    match s.find? names with
    | none => .error .notFound
    | some entry => .ok entry

def read (s : FileStore) (path : String) : Except FileError ByteArray :=
  match s.look path with
  | .error e => .error e
  | .ok .directory => .error .isDirectory
  | .ok (.file bytes) => .ok bytes

def write (s : FileStore) (path : String) (bytes : ByteArray) : Except FileError FileStore :=
  match s.resolve true path with
  | .error e => .error e
  | .ok names =>
    match s.find? names with
    | some .directory => .error .isDirectory
    | _ => .ok (s.put names bytes)

instance : FileAccess (StateM FileStore) where
  isPresent path := do return (← get).look path |>.isOk
  read path := do return (← get).read path
  write path bytes := do
    match (← get).write path bytes with
    | .error e => return .error e
    | .ok s => set s; return .ok ()

end FileStore

end Worksheet
