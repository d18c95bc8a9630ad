import Worksheet.Program.Options
import Worksheet.Settings.Basic
import Worksheet.Shell.Session
import Worksheet.Text.Lines

/-!
# Running the program

The program reads its settings, loads a dump file if there is one to begin with, and carries out the
commands of its arguments or else the lines of its input. Then it writes a dump file if one is asked
for.
-/
namespace Worksheet.Program

/-- What the program leaves: its exit code and what it prints. -/
structure Outcome where
  exitCode : Nat
  output : String
  errors : String
  deriving DecidableEq, Repr

def defaultName : String := "scratch"

def defaultPrompt : String := ">> "

/-- The line about an error that ends the program, with the causes behind it. -/
def errorLine (messages : List String) : String :=
  "Error: " ++ ": ".intercalate messages ++ "\n"

def warningLine (warning : String) : String := "Warning: " ++ warning ++ "\n"

/-- The state in which the program begins to carry out commands: the settings, the sheet unless it
could not be loaded, and what has been printed of errors. -/
structure Start where
  settings : Settings
  sheet : Option Sheet
  errors : String

variable {m : Type → Type} [Monad m] [FileAccess m]

/-- The settings and the warnings about them. The file at `path` is the one that is read if the
arguments name none. -/
def readSettings (o : Options) (path : String) : m (Settings × List String) :=
  if o.noSettings then return (.none, [])
  else
    match o.settings with
    | none => Settings.load path false
    | some named => Settings.load named true

/-- Reads the settings and loads the sheet to begin with. A dump file that the arguments name has to
be loaded; one that the settings name need not. -/
def start (o : Options) (path : String) : m Start := do
  let (settings, warnings) ← readSettings o path
  let errors := String.join (warnings.map warningLine)
  let sheet := Sheet.new (o.name.getD (settings.name.getD defaultName))
  match o.load, settings.autoload with
  | some file, _ =>
    match ← Session.loadFile sheet file with
    | (_, .error e) =>
      return ⟨settings, none, errors ++ errorLine (("failed to load " ++ file) :: e.messages)⟩
    | (sheet, .ok _) => return ⟨settings, some sheet, errors⟩
  | none, some file =>
    match ← Session.loadFile sheet file with
    | (sheet, .error e) =>
      return ⟨settings, some sheet,
        errors ++ warningLine ("autoload " ++ file ++ ": " ++ e.message)⟩
    | (sheet, .ok _) => return ⟨settings, some sheet, errors⟩
  | none, none => return ⟨settings, some sheet, errors⟩

/-- Carries out the commands of the arguments up to the first that fails. -/
def runCommands (s : Sheet) (output : String) :
    List String → m (Sheet × String × Option SessionError)
  | [] => return (s, output, none)
  | line :: lines => do
    let reply ← Session.runLine s line
    let output := output ++ reply.output
    match reply.error with
    | some e => return (reply.sheet, output, some e)
    | none => runCommands reply.sheet output lines

/-- Carries out the commands of the arguments and writes the dump file that they ask for. -/
def perform (o : Options) (s : Sheet) : m Outcome := do
  match ← runCommands s "" o.commands with
  | (_, output, some e) => return ⟨1, output, e.message ++ "\n"⟩
  | (s, output, none) =>
    match o.output with
    | none => return ⟨0, output, ""⟩
    | some file =>
      match ← Session.saveFile s file with
      | .error e => return ⟨1, output, errorLine (("failed to write " ++ file) :: e.messages)⟩
      | .ok _ => return ⟨0, output, ""⟩

def conversed (t : Session.Transcript) : Outcome :=
  match t.failure with
  | none => ⟨0, t.output, t.errors⟩
  | some e => ⟨1, t.output, t.errors ++ errorLine [e.message]⟩

/-- Runs the program with an input that is no terminal.
mirrors `run` -/
def run (arguments : List String) (input : ByteArray) (settingsPath : String) : m Outcome := do
  match Options.parse arguments with
  | .error refusal => return ⟨refusal.exitCode, "", refusal.message⟩
  | .ok o =>
    let begun ← start o settingsPath
    match begun.sheet with
    | none => return ⟨1, "", begun.errors⟩
    | some sheet =>
      let outcome ← if o.readsInput then
          conversed <$> Session.converse "" sheet (Text.lines input)
        else perform o sheet
      return { outcome with errors := begun.errors ++ outcome.errors }

end Worksheet.Program
