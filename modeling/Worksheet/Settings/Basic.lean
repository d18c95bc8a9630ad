import Worksheet.Files.Store
import Worksheet.Settings.Token

/-!
# Settings

The settings of the program are the name of the sheet, the prompt, and the dump file to begin with.
A settings file that does not exist sets nothing; one that cannot be used is warned of and sets
nothing.
-/
namespace Worksheet

/-- What a settings file sets.
mirrors `Config` -/
structure Settings where
  name : Option String
  prompt : Option String
  autoload : Option String
  deriving DecidableEq, Repr

namespace Settings

def none : Settings := ⟨.none, .none, .none⟩

/-- Sets what is not set yet. No key may be set twice, and there are no other keys. -/
def set? (s : Settings) (key value : String) : Option Settings :=
  if key = "name" ∧ s.name = .none then some { s with name := value }
  else if key = "prompt" ∧ s.prompt = .none then some { s with prompt := value }
  else if key = "autoload" ∧ s.autoload = .none then some { s with autoload := value }
  else .none

/-- Settings with those of some lines added. A line is empty or sets one text. -/
def ofLines (s : Settings) : List Token → Option Settings
  | [] => some s
  | .lineEnd :: rest => ofLines s rest
  | key :: .equals :: value :: rest =>
    let key? : Option String := match key with
      | .bare key | .quoted key => some key
      | _ => .none
    let value? : Option String := match value with
      | .quoted value | .block value => some value
      | _ => .none
    match key?, value? with
    | some key, some value =>
      match s.set? key value with
      | .none => .none
      | some s =>
        match rest with
        | [] => some s
        | .lineEnd :: rest => ofLines s rest
        | _ => .none
    | _, _ => .none
  | _ => .none

/-- The settings of a file's text.
mirrors `parse_config` -/
def parse? (text : String) : Option Settings := (tokens text).bind (ofLines none)

/-- What is said of a file whose text makes no settings. -/
def parseComplaint : String := "TOML parse error: only name, prompt and autoload can be set, to texts"

variable {m : Type → Type} [Monad m] [FileAccess m]

/-- The settings of the file at a path, with warnings. That there is no file is worth a warning only
if it `isNamed` by the user.
mirrors `load_config` -/
def load (path : String) (isNamed : Bool) : m (Settings × List String) := do
  if !(← FileAccess.isPresent path) then
    return (none, if isNamed then ["Config file not found: " ++ path] else [])
  match ← FileAccess.read path with
  | .error e => return (none, ["Failed to read " ++ path ++ ": " ++ e.message])
  | .ok bytes =>
    match String.fromUTF8? bytes with
    | .none => return (none, ["Failed to read " ++ path ++ ": " ++ FileError.notText.message])
    | some text =>
      match parse? text with
      | .none => return (none, ["Failed to parse " ++ path ++ ": " ++ parseComplaint])
      | some s => return (s, [])

end Settings

end Worksheet
