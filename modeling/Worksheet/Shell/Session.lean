import Worksheet.Files.Dump
import Worksheet.Shell.Command
import Worksheet.Sheet.Dump
import Worksheet.Sheet.Edit

/-!
# Sessions

Commands are carried out on one sheet. Answers are JSON texts; a command that fails is answered by
an error.
-/
namespace Worksheet

/-- Why a line fails.
mirrors `AppError` -/
inductive SessionError where
  | usage (cause : UsageError)
  | entry (cause : EntryError)
  | file (cause : FileError)
  /-- A dump file does not hold pairs of texts. -/
  | notPairs
  deriving DecidableEq, Repr

namespace SessionError

def ofDump : DumpError → SessionError
  | .file cause => file cause
  | .notPairs => notPairs

def notPairsDetail : String := "not a list of pairs of texts"

def message : SessionError → String
  | usage cause => cause.message
  | entry cause => cause.code ++ ": " ++ cause.message
  | file cause => "IO error: " ++ cause.message
  | notPairs => "JSON error: " ++ notPairsDetail

/-- The message and, after it, those of the causes behind it. -/
def messages (e : SessionError) : List String :=
  e.message :: match e with
    | usage _ => []
    | entry (.badFormula cause) => [(EntryError.badFormula cause).message, cause.message]
    | entry cause => [cause.message]
    | file cause => [cause.message]
    | notPairs => [notPairsDetail]

end SessionError

namespace Session

/-- mirrors `HELP` -/
def help : String :=
  "Commands:
    clear                 clear spreadsheet
    copy DEST SRC         copy formula from cell SRC to cell DEST
    delete CELL           delete formula in cell CELL
    dump                  dump formulas in topological order
    eval CELL FORMULA     eval FORMULA into cell CELL
    CELL = FORMULA        same as eval
    load FILE             replace spreadsheet with dump in FILE
    save FILE             write dump to FILE
    query CELL            show formula and current value of CELL
    help                  show this message"

/-! ## Answers -/

def updatesText (updates : Updates) : String :=
  (Json.object (updates.toList.map fun (p, x) => (p.name, .number x))).pretty

def queryText (answer : Float × String) : String :=
  (Json.object [("value", .number answer.1), ("expr", .text answer.2)]).pretty

def dumpText (pairs : List (String × String)) : String := (Json.ofPairs pairs).pretty

/-- The sheet after a command, and its answer if there is one. -/
abbrev Result := Sheet × Except SessionError (Option String)

def entered (result : Sheet × Except EntryError Updates) : Result :=
  match result with
  | (s, .error e) => (s, .error (.entry e))
  | (s, .ok updates) => (s, .ok (some (updatesText updates)))

/-! ## Commands -/

/-- The sheet that some pairs make, in place of `s`. It is kept if one of them is refused.
mirrors `Shell.load_file` after the file is read -/
def replaced (s : Sheet) (pairs : List (String × String)) : Sheet × Except SessionError Unit :=
  match s.clear.load pairs with
  | (_, .error e) => (s, .error (.entry e))
  | (loaded, .ok _) => (loaded, .ok ())

variable {m : Type → Type} [Monad m] [FileAccess m]

/-- Replaces a sheet by the one in a dump file, if that can be read and entered.
mirrors `Shell.load_file` -/
def loadFile (s : Sheet) (path : String) : m (Sheet × Except SessionError Unit) := do
  match ← DumpFile.read path with
  | .error e => return (s, .error (.ofDump e))
  | .ok pairs => return replaced s pairs

/-- mirrors `Shell.save_file` -/
def saveFile (s : Sheet) (path : String) : m (Except SessionError Unit) := do
  match ← DumpFile.write path s.dumpPairs with
  | .error e => return .error (.ofDump e)
  | .ok _ => return .ok ()

/-- Carries out a command.
mirrors `Shell.execute` -/
def run (s : Sheet) : Command → m Result
  | .clear => return (s.clear, .ok none)
  | .copy target source => return entered (s.copy target source)
  | .delete cell => return entered (s.remove cell)
  | .dump => return (s, .ok (some (dumpText s.dumpPairs)))
  | .enter cell formula => return entered (s.enter cell formula)
  | .load path => do
    let (s, result) ← loadFile s path
    return (s, result.map fun _ => none)
  | .save path => do
    let result ← saveFile s path
    return (s, result.map fun _ => none)
  | .query cell => return (s, .ok (some (queryText (s.query cell))))
  | .help => return (s, .ok (some help))

/-! ## Lines -/

/-- What a line leaves: the sheet, what is printed, and the error if it fails. -/
structure Reply where
  sheet : Sheet
  output : String
  error : Option SessionError

def printed : Option String → String
  | none => ""
  | some text => text ++ "\n"

/-- Carries out a line.
mirrors `Shell.run_line` -/
def runLine (s : Sheet) (line : String) : m Reply := do
  match Command.parse line with
  | .error e => return ⟨s, "", some (.usage e)⟩
  | .ok none => return ⟨s, "", none⟩
  | .ok (some command) =>
    match ← run s command with
    | (s, .error e) => return ⟨s, "", some e⟩
    | (s, .ok answer) => return ⟨s, printed answer, none⟩

/-! ## Conversations -/

/-- What a conversation leaves: the sheet, what is printed, the error texts, and the reason if the
input fails. -/
structure Transcript where
  sheet : Sheet
  output : String
  errors : String
  failure : Option FileError

def Transcript.add (t : Transcript) (prompt : String) (reply : Reply) : Transcript where
  sheet := reply.sheet
  output := t.output ++ reply.output ++ prompt
  errors := match reply.error with
    | none => t.errors
    | some e => t.errors ++ e.message ++ "\n"
  failure := t.failure

/-- Carries out lines until they end or one is not text.
mirrors the loop of `Shell.repl` -/
def converseFrom (prompt : String) (t : Transcript) : List (Option String) → m Transcript
  | [] => return t
  | none :: _ => return { t with failure := some .notText }
  | some line :: lines => do
    let reply ← runLine t.sheet line
    converseFrom prompt (t.add prompt reply) lines

/-- Shows the prompt and carries out lines. A line that fails does not end the conversation.
mirrors `Shell.repl` -/
def converse (prompt : String) (s : Sheet) (lines : List (Option String)) : m Transcript :=
  converseFrom prompt ⟨s, prompt, "", none⟩ lines

end Session

end Worksheet
