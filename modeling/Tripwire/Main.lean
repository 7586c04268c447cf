import Tripwire.Command.Run

/-!
# The program

Collects the environment of `Command.run`, and prints what comes out of it: the
output on standard output, log lines and the failure on standard error.
-/

namespace Tripwire.Command

/-- The environment variables that the program looks at. -/
def settingNames : List String :=
  ["LINEHOOK_MODULE", "LINEHOOK_CALLBACK", "RUST_LOG"] ++ Settings.colourNames

/-- Why a file cannot be read, from the operating system's answer. -/
def ReadFailure.ofError : IO.Error → ReadFailure
  | .noFileOrDirectory .. => .notFound
  | .inappropriateType _ code _ => if code = 20 then .notADirectory else .isADirectory
  | .invalidArgument .. => .nameTooLong
  | _ => .notADirectory

/-- Reads a file. -/
def readSource (path : String) : IO (Except ReadFailure String) := do
  try
    return .ok (← IO.FS.readFile path)
  catch error =>
    return .error (.ofError error)

/-- Reads standard input to its end. -/
def readInput : IO String := do
  let stdin ← IO.getStdin
  stdin.readToEnd

/-- The environment of a call with some arguments. The file and the typed text are read only if the
arguments ask for them. -/
def collectEnvironment (arguments : List String) : IO Environment := do
  let settings ← settingNames.filterMapM fun name => do
    return (← IO.getEnv name).map fun value => (name, value)
  let options := (readOptions arguments).toOption
  let path := (options.bind Options.source).getD ""
  let file ← readSource path
  let input ← if (options.map Options.console).getD false then readInput else pure ""
  return ⟨arguments, fun name => settings.lookup name, fun _ => file, input⟩

end Tripwire.Command

/-- The program with its arguments. -/
def main (arguments : List String) : IO UInt32 := do
  let environment ← Tripwire.Command.collectEnvironment arguments
  let (transcript, failure) := Tripwire.Command.run environment
  for line in Tripwire.Command.shownLog environment transcript do
    IO.eprintln line
  IO.print transcript.output
  if let some failure := failure then
    IO.eprintln s!"Error: {failure.diagnostic}"
  return Tripwire.Command.exitStatus failure
