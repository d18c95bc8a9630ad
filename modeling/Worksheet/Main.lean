import Worksheet.Program.Run

/-!
# The program

Reads arguments, files and the input, and prints. On a terminal the lines of the input are answered
one by one after a prompt.
-/
namespace Worksheet

/-- The number of a system error, which some operations give with the other sign. -/
def systemNumber (code : UInt32) : Nat := min code.toNat (0 - code).toNat

/-- The reason for which the system refused a file. -/
def FileError.ofSystem : IO.Error → FileError
  | .noFileOrDirectory .. => .notFound
  | .inappropriateType _ code details =>
    if systemNumber code = 20 then .notDirectory
    else if systemNumber code = 21 then .isDirectory
    else .other details
  | .invalidArgument _ code details =>
    if systemNumber code = 36 then .nameTooLong else .other details
  | e => .other (toString e)

def attempt {α : Type} (operation : IO α) : IO (Except FileError α) := do
  try
    return .ok (← operation)
  catch e =>
    return .error (.ofSystem e)

instance : FileAccess IO where
  isPresent path := do
    try
      let place ← IO.FS.realPath path
      place.pathExists
    catch _ =>
      return false
  read path := attempt (IO.FS.readBinFile path)
  write path bytes := attempt (IO.FS.writeBinFile path bytes)

/-- Where the settings are kept: below the directory for them, or else below the user's own.
mirrors `default_config_path` -/
def settingsPath : IO String := do
  let below (directory : String) := directory ++ "/sheetcalc/config.toml"
  match ← IO.getEnv "XDG_CONFIG_HOME" with
  | some directory =>
    if directory.startsWith "/" then return below directory
  | none => pure ()
  match ← IO.getEnv "HOME" with
  | some home => return below (home ++ "/.config")
  | none => return ""

/-- Reads bytes up to a line feed or the end of the input, after those of `line`. -/
partial def readLine (input : IO.FS.Stream) (line : ByteArray) : IO ByteArray := do
  let next ← input.read 1
  let line := line ++ next
  if next.toList = [] ∨ next.toList = [0x0A] then return line else readLine input line

/-- Answers the lines of the input one by one, each after the prompt. -/
partial def converseOn (input : IO.FS.Stream) (prompt : String) (s : Sheet) : IO UInt32 := do
  IO.print prompt
  (← IO.getStdout).flush
  match ← attempt (readLine input .empty) with
  | .error e =>
    IO.eprint (Program.errorLine [e.message])
    return 1
  | .ok bytes =>
    match Text.lines bytes with
    | [] => return 0
    | none :: _ =>
      IO.eprint (Program.errorLine [FileError.notText.message])
      return 1
    | some line :: _ =>
      let reply ← Session.runLine s line
      IO.print reply.output
      match reply.error with
      | some e => IO.eprintln e.message
      | none => pure ()
      converseOn input prompt reply.sheet

def runWith (o : Options) : IO UInt32 := do
  let begun ← Program.start o (← settingsPath)
  IO.eprint begun.errors
  match begun.sheet with
  | none => return 1
  | some sheet =>
    if o.readsInput then
      let input ← IO.getStdin
      let prompt :=
        if ← input.isTty then begun.settings.prompt.getD Program.defaultPrompt else ""
      converseOn input prompt sheet
    else
      let outcome ← Program.perform o sheet
      IO.print outcome.output
      IO.eprint outcome.errors
      return outcome.exitCode.toUInt32

end Worksheet

def main (arguments : List String) : IO UInt32 := do
  match Worksheet.Options.parse arguments with
  | .error refusal =>
    IO.eprint refusal.message
    return refusal.exitCode.toUInt32
  | .ok o => Worksheet.runWith o
