import Tripwire.Text.Numeral

/-!
# Options

The arguments of the command line.

* `Options`: what the arguments ask for;
* `UsageFault`: why arguments are refused;
* `Options.read`: one argument after the other;
* `readOptions`: the arguments with the checks on their combination.
-/

namespace Tripwire.Command

/-- A line and a breakpoint number. -/
structure LineId where
  line : Nat
  id : Nat
  deriving DecidableEq, Repr

/-- What the arguments ask for. -/
structure Options where
  source : Option String
  breaks : List LineId
  clears : List LineId
  module : Option String
  callback : Option String
  json : Bool
  console : Bool
  help : Bool
  deriving DecidableEq, Repr

/-- Nothing asked for yet. -/
def Options.none : Options := ⟨.none, [], [], .none, .none, false, false, false⟩

/-- Why arguments are refused. -/
inductive UsageFault
  | missingValue (flag : String)
  | invalidValue (flag value : String)
  | unknownFlag (argument : String)
  | multipleSources
  | missingSource
  | jsonInConsole
  deriving DecidableEq, Repr

/-- The message for a reader. -/
def UsageFault.message : UsageFault → String
  | .missingValue flag => s!"missing value for {flag}"
  | .invalidValue flag value => s!"invalid {flag} value '{value}', expected LINE:ID"
  | .unknownFlag argument => s!"unknown flag '{argument}'"
  | .multipleSources => "multiple source paths provided"
  | .missingSource => "missing source path (see --help)"
  | .jsonInConsole => "--json cannot be combined with --repl"

/-- Reads a line and a number with a colon between them. -/
def readLineId (flag value : String) : Except UsageFault LineId :=
  let line := value.toList.takeWhile fun c => c != ':'
  match value.toList.dropWhile fun c => c != ':' with
  | [] => .error (.invalidValue flag value)
  | _ :: id =>
    match Text.nat32? line, Text.nat32? id with
    | some line, some id => .ok ⟨line, id⟩
    | _, _ => .error (.invalidValue flag value)

namespace Options

/-- Takes a path, of which there may be one. -/
def withSource (o : Options) (path : String) : Except UsageFault Options :=
  match o.source with
  | some _ => .error .multipleSources
  | .none => .ok { o with source := some path }

/-- Reads the arguments one after the other. -/
def read (o : Options) : List String → Except UsageFault Options
  | [] => .ok o
  | "-h" :: rest | "--help" :: rest => { o with help := true }.read rest
  | "--json" :: rest => { o with json := true }.read rest
  | "--repl" :: rest => { o with console := true }.read rest
  | ["--break"] => .error (.missingValue "--break")
  | "--break" :: value :: rest =>
    match readLineId "--break" value with
    | .error fault => .error fault
    | .ok x => { o with breaks := o.breaks ++ [x] }.read rest
  | ["--clear"] => .error (.missingValue "--clear")
  | "--clear" :: value :: rest =>
    match readLineId "--clear" value with
    | .error fault => .error fault
    | .ok x => { o with clears := o.clears ++ [x] }.read rest
  | ["--module"] => .error (.missingValue "--module")
  | "--module" :: value :: rest => { o with module := some value }.read rest
  | ["--callback"] => .error (.missingValue "--callback")
  | "--callback" :: value :: rest => { o with callback := some value }.read rest
  | argument :: rest =>
    if argument.toList.head? = some '-' then .error (.unknownFlag argument)
    else
      match o.withSource argument with
      | .error fault => .error fault
      | .ok o => o.read rest

/-- The checks on the combination of the arguments. Asking for help needs nothing else. -/
def check (o : Options) : Except UsageFault Options :=
  if o.help then .ok o
  else if o.source.isNone then .error .missingSource
  else if o.console && o.json then .error .jsonInConsole
  else .ok o

end Options

/-- What the arguments ask for. -/
def readOptions (arguments : List String) : Except UsageFault Options := do
  (← Options.none.read arguments).check

/-- The text that explains the arguments. -/
def usage : String :=
  "Usage:\n" ++
  "  lh-run <source.lha>                       (print the disassembly)\n" ++
  "  lh-run <source.lha> --break <line:id> [--break <line:id> ...]\n" ++
  "  lh-run <source.lha> --break <line:id> --clear <line:id>\n" ++
  "  lh-run <source.lha> [--module <name>] [--callback <name>] [--json]\n" ++
  "  lh-run <source.lha> --repl\n" ++
  "\n" ++
  "Environment:\n" ++
  "  LINEHOOK_MODULE / LINEHOOK_CALLBACK  default injected call target\n" ++
  "  RUST_LOG                             log filter (default: info)\n"

end Tripwire.Command
