/-!
# Options

The arguments of the program.
-/
namespace Worksheet

/-- What the arguments ask for. -/
structure Options where
  name : Option String
  load : Option String
  output : Option String
  commands : List String
  settings : Option String
  noSettings : Bool
  deriving DecidableEq, Repr

inductive Refusal where
  | help
  | noValue (option what : String)
  | unknown (argument : String)
  deriving DecidableEq, Repr

namespace Refusal

/-- mirrors `print_usage` -/
def usage : String :=
  "Usage: sheetcalc [OPTIONS]

Options:
  -n, --name <NAME>         Spreadsheet name
  -l, --load <FILE>         Load a dump file before running commands
  -o, --output <FILE>       Write a dump file after running commands
  -c, --command <LINE>      Run a shell command (can be repeated)
  --config <FILE>           Read settings from FILE
  --no-config               Do not read config.toml from config dir
  -h, --help                Print help

Without --command, commands are read from stdin. Type 'help' for a list.
"

def message : Refusal → String
  | help => usage
  | noValue option what => "Error: " ++ option ++ " requires " ++ what ++ "\n"
  | unknown argument => "Error: Unknown argument: " ++ argument ++ "\n" ++ usage

/-- Only the wish for help is no failure. -/
def exitCode : Refusal → Nat
  | help => 0
  | _ => 1

end Refusal

namespace Options

def none : Options := ⟨.none, .none, .none, [], .none, false⟩

/-- The option that takes a value, by either of its names: what the value is, and what it sets. -/
def valued? (argument : String) : Option (String × (Options → String → Options)) :=
  match argument with
  | "-n" | "--name" => some ("a value", fun o v => { o with name := v })
  | "-l" | "--load" => some ("a file path", fun o v => { o with load := v })
  | "-o" | "--output" => some ("a file path", fun o v => { o with output := v })
  | "-c" | "--command" => some ("a command", fun o v => { o with commands := o.commands ++ [v] })
  | "--config" => some ("a file path", fun o v => { o with settings := v })
  | _ => .none

/-- Options with those of some arguments added. An argument after an option that takes a value is
that value, whatever it is. -/
def parseFrom (o : Options) : List String → Except Refusal Options
  | [] => .ok o
  | argument :: rest =>
    if argument = "-h" ∨ argument = "--help" then .error .help
    else if argument = "--no-config" then parseFrom { o with noSettings := true } rest
    else
      match valued? argument, rest with
      | .none, _ => .error (.unknown argument)
      | some (what, _), [] => .error (.noValue argument what)
      | some (_, set), value :: rest => parseFrom (set o value) rest

/-- mirrors `parse_args` -/
def parse (arguments : List String) : Except Refusal Options := parseFrom none arguments

def readsInput (o : Options) : Bool := o.commands.isEmpty && o.output.isNone

end Options

end Worksheet
