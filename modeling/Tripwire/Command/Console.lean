import Tripwire.Command.Log
import Tripwire.Command.Report
import Tripwire.Command.TypedLine
import Tripwire.Listing
import Tripwire.Text.Blank

/-!
# The console

In the console breakpoints are set and cleared by commands, one on a line.

* `Transcript`: what is printed and what is logged;
* `Session`: the function with its injector;
* `Session.setBreakpoint`, `Session.clearBreakpoint`: the requests with their
  log lines;
* `Session.command`: one command;
* `Session.converse`: the commands of a text.
-/

namespace Tripwire.Command

/-- What is printed and what is logged, each in order. -/
structure Transcript where
  output : String
  log : List LogLine
  deriving DecidableEq, Repr

namespace Transcript

/-- Nothing printed and nothing logged. -/
def empty : Transcript := ⟨"", []⟩

/-- Printed text. -/
def print (text : String) : Transcript := ⟨text, []⟩

/-- Log lines. -/
def logged (lines : List LogLine) : Transcript := ⟨"", lines⟩

/-- One transcript after the other. -/
def append (a b : Transcript) : Transcript := ⟨a.output ++ b.output, a.log ++ b.log⟩

instance : Append Transcript := ⟨append⟩

end Transcript

/-- A function with the injector that serves it. -/
structure Session where
  injector : Injector
  function : Function
  deriving DecidableEq, Repr

namespace Session

/-- Sets a breakpoint. The log has the notes of the request, and the new state if it is granted. -/
def setBreakpoint (s : Session) (colours : Bool) (line id : Nat) :
    Except Fault Session × List LogLine :=
  let notes := (s.injector.insertNotes s.function line id).map noteLine
  match s.injector.insert s.function line id with
  | .error fault => (.error fault, notes)
  | .ok (injector, function) =>
    let label := breakpointLabel colours (injector.registry.status id)
    (.ok ⟨injector, function⟩, notes ++ [⟨.info, .program, s!"breakpoint {label}"⟩])

/-- Clears a breakpoint. The log has the notes of the request, and the new state if it is granted. -/
def clearBreakpoint (s : Session) (colours : Bool) (line id : Nat) :
    Except Fault Session × List LogLine :=
  let notes := (s.injector.removeNotes s.function line id).map noteLine
  match s.injector.remove s.function line id with
  | .error fault => (.error fault, notes)
  | .ok (injector, function) =>
    let label := breakpointLabel colours (injector.registry.status id)
    (.ok ⟨injector, function⟩,
      notes ++ [⟨.info, .program, s!"breakpoint {label} after clearing line {line}"⟩])

/-- The text that explains the commands. -/
def helpText : String :=
  "b LINE ID      insert breakpoint ID before LINE\n" ++
  "clear LINE ID  remove breakpoint ID from LINE\n" ++
  "dis            disassemble the function\n" ++
  "info           function and breakpoint state as JSON\n" ++
  "q              quit\n"

/-- The two numbers that arguments consist of. -/
def readArguments : List (List Char) → Option (Nat × Nat)
  | [line, id] => (Text.nat32? line).bind fun line => (Text.nat32? id).map fun id => (line, id)
  | _ => none

/-- A command on a breakpoint: the request, what is printed when it is granted, and the usage text
for other arguments. -/
def breakpointCommand (s : Session) (name : String) (arguments : List (List Char)) (usage : String)
    (request : Nat → Nat → Except Fault Session × List LogLine) (granted : Nat → Nat → String) :
    Session × Transcript :=
  match readArguments arguments with
  | none => (s, .print usage)
  | some (line, id) =>
    match request line id with
    | (.ok s, log) => (s, .logged log ++ .print (granted line id))
    | (.error fault, log) =>
      let warning : LogLine := ⟨.warn, .program, s!"{name} {line} {id}: {fault.message}"⟩
      (s, .logged (log ++ [warning]) ++ .print s!"error: {fault.message}\n")

/-- Carries out a command given as its tokens. Without a session the console ends. -/
def command (s : Session) (colours : Bool) : List (List Char) → Option Session × Transcript
  | [] => (some s, .empty)
  | token :: arguments =>
    let name := String.ofList token
    match name with
    | "q" | "quit" | "exit" => (none, .empty)
    | "h" | "help" => (some s, .print helpText)
    | "b" | "break" =>
      let (s, transcript) := s.breakpointCommand name arguments "usage: b <line> <id>\n"
        (s.setBreakpoint colours) fun line id => s!"breakpoint {id} set at line {line}\n"
      (some s, transcript)
    | "clear" =>
      let (s, transcript) := s.breakpointCommand name arguments "usage: clear <line> <id>\n"
        (s.clearBreakpoint colours) fun line id => s!"breakpoint {id} cleared at line {line}\n"
      (some s, transcript)
    | "dis" =>
      match listing s.function with
      | .ok text => (some s, .print text)
      | .error fault => (some s, .print s!"error: {fault.message}\n")
    | "info" => (some s, .print (report s.injector s.function ++ "\n"))
    | _ => (some s, .print s!"unknown command '{name}' (try help)\n")

/-- An attempt to read a line is noted, and a plain terminal is given the prompt. -/
def asking (plain : Bool) : Transcript :=
  if plain then .logged [⟨.debug, .reader, "unsupported terminal"⟩] ++ .print "linehook> "
  else .logged [⟨.debug, .reader, "stdin is not a tty"⟩]

/-- Carries out the commands of some lines until one ends the console. The attempt that meets the
end of the input counts too. -/
def commands (s : Session) (colours plain : Bool) : List (List Char) → Transcript
  | [] => asking plain
  | line :: rest =>
    match s.command colours (Text.tokens (typedText line)) with
    | (none, transcript) => asking plain ++ transcript
    | (some s, transcript) => asking plain ++ transcript ++ s.commands colours plain rest

/-- The console on a text of commands. -/
def converse (s : Session) (colours plain : Bool) (input : String) : Transcript :=
  .print s!"lh-run REPL ({s.function.name})\n" ++
  .print "commands: b LINE ID, clear LINE ID, dis, info, help, q\n" ++
  s.commands colours plain (inputLines input.toList) ++
  .print "bye\n"

end Session

end Tripwire.Command
