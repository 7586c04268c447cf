import Tripwire.Assembly.Source
import Tripwire.Command.Colour
import Tripwire.Command.Console
import Tripwire.Command.Directory
import Tripwire.Command.Options

/-!
# Running the program

The program reads its arguments, assembles the source, sets and clears
breakpoints, and then shows a listing, a report or the console. All of that is a
function of the environment.

* `Environment`: what the program is given;
* `Failure`: why it stops, with its `diagnostic`;
* `run`: the transcript, and the failure if there is one.
-/

namespace Tripwire

/-- The fault in constructor notation. -/
def Fault.diagnostic (fault : Fault) : String :=
  match fault with
  | .misaligned offset => s!"OffsetMisaligned \x7b offset: {offset} \x7d"
  | .lineNotFound line => s!"LineNotFound \x7b line: {line} \x7d"
  | .offsetNotFound offset => s!"OffsetNotFound \x7b offset: {offset} \x7d"
  | .alreadyActive id => s!"AlreadyActive \x7b id: {id} \x7d"
  | .notActive id => s!"NotActive \x7b id: {id} \x7d"
  | .suspends offset opcode =>
    s!"UnsupportedConstruct \x7b offset: {offset}, opcode: {opcode.title} \x7d"
  | .underrun quantity missing =>
    s!"Underrun \x7b what: {Text.quote quantity.name}, by: {missing} \x7d"
  | .inconsistent cause => s!"Consistency({Text.quote cause.message})"
  | .undecodable cause => s!"Decode({cause.diagnostic})"

namespace Command

/-- What the program is given: its arguments, environment variables and files, and the text typed
in the console. -/
structure Environment where
  arguments : List String
  settings : Settings
  fileText : String → Except ReadFailure String
  input : String

/-- Why the program stops. -/
inductive Failure
  | usage (fault : UsageFault)
  | read (failure : ReadFailure)
  | source (path : String) (fault : SourceFault)
  | refused (fault : Fault)
  | unlistable (fault : DecodeFault)
  deriving DecidableEq, Repr

/-- An error of the program's own, by its message. -/
def customDiagnostic (message : String) : String :=
  s!"Custom \x7b kind: Other, error: {Text.quote message} \x7d"

/-- The failure in constructor notation. -/
def Failure.diagnostic : Failure → String
  | .usage fault => customDiagnostic fault.message
  | .read failure => failure.diagnostic
  | .source path fault => customDiagnostic s!"{path}: {fault.message}"
  | .refused fault => fault.diagnostic
  | .unlistable fault => fault.diagnostic

/-- A setting without outer blanks, unless nothing else is there. -/
def Environment.setting? (e : Environment) (name : String) : Option String :=
  let trimmed := (e.settings name).map fun value => String.ofList (Text.trim value.toList)
  trimmed.filter fun value => !value.isEmpty

/-- The call that breakpoints make: as the options say, else as the environment says, else the
standard one. -/
def Environment.target (e : Environment) (o : Options) : CallTarget :=
  let standard := CallTarget.standard
  ⟨(o.module.or (e.setting? "LINEHOOK_MODULE")).getD standard.module,
    (o.callback.or (e.setting? "LINEHOOK_CALLBACK")).getD standard.callback⟩

/-- Requests one after the other, up to the first that is refused. -/
def requests (request : Session → LineId → Except Fault Session × List LogLine) :
    Session → List LineId → Except Failure Session × List LogLine
  | s, [] => (.ok s, [])
  | s, x :: rest =>
    match request s x with
    | (.error fault, log) => (.error (.refused fault), log)
    | (.ok s, log) =>
      let (result, more) := requests request s rest
      (result, log ++ more)

/-- What is shown once the breakpoints are set and cleared. -/
def present (e : Environment) (o : Options) (s : Session) : Transcript × Option Failure :=
  if o.console then (s.converse e.settings.colours e.settings.plainTerminal e.input, none)
  else if o.json then (.print (report s.injector s.function ++ "\n"), none)
  else
    match listing s.function with
    | .ok text => (.print text, none)
    | .error fault =>
      (.logged [⟨.error, .program, s!"cannot list {s.function.name}: {fault.message}"⟩],
        some (.unlistable fault))

/-- Reads and assembles the source. -/
def load (e : Environment) (path : String) : Except Failure Function := do
  let text ← (e.fileText path).mapError Failure.read
  (assemble text.toList).mapError (Failure.source path)

/-- The program on a source. -/
def runSource (e : Environment) (o : Options) (path : String) : Transcript × Option Failure :=
  match load e path with
  | .error failure => (.empty, some failure)
  | .ok f =>
    let loaded : LogLine := ⟨.info, .program,
      s!"loaded {f.name} from {path} ({f.code.length} bytes, stack {f.stackDepth})"⟩
    let s : Session := ⟨.start (e.target o), f⟩
    let (result, log) := requests (fun s x => s.setBreakpoint e.settings.colours x.line x.id) s o.breaks
    let log := loaded :: log
    match result with
    | .error failure => (.logged log, some failure)
    | .ok s =>
      let (result, more) := requests (fun s x => s.clearBreakpoint e.settings.colours x.line x.id) s o.clears
      let log := log ++ more
      match result with
      | .error failure => (.logged log, some failure)
      | .ok s =>
        let (transcript, failure) := present e o s
        (.logged log ++ transcript, failure)

/-- The program. -/
def run (e : Environment) : Transcript × Option Failure :=
  match readOptions e.arguments with
  | .error fault => (.empty, some (.usage fault))
  | .ok o =>
    if o.help then (.print usage, none)
    else
      match o.source with
      | none => (.empty, some (.usage .missingSource))
      | some path => runSource e o path

/-- The log lines that the environment asks for, as they are shown. -/
def shownLog (e : Environment) (t : Transcript) : List String :=
  let filter := LogFilter.read (e.settings "RUST_LOG")
  (t.log.filter filter.shows).map (LogLine.render e.settings.colours)

/-- The exit status. -/
def exitStatus (failure : Option Failure) : UInt32 := if failure.isSome then 1 else 0

end Command

end Tripwire
