import Tripwire.Assembly.Builder
import Tripwire.Assembly.Statement

/-!
# Source text

Source text is assembled line by line. The first fault ends the assembly; a fault
of the finished layout counts as one of line zero.

* `Assembler`: the builder with the names given to constants;
* `Assembler.run`: one statement;
* `assemble`: the function of a source text.
-/

namespace Tripwire

/-- A fault with the number of its line. -/
structure SourceFault where
  line : Nat
  cause : SourceCause
  deriving DecidableEq, Repr

/-- The message for a reader. -/
def SourceFault.message (fault : SourceFault) : String :=
  s!"line {fault.line}: {fault.cause.message}"

/-- A function under construction with the names given to its constants. -/
structure Assembler where
  builder : Builder
  constants : List (String × UInt32)
  deriving DecidableEq, Repr

namespace Assembler

/-- The name of a function that its source does not name. -/
def defaultName : String := "<asm>"

/-- An assembler without statements. -/
def start : Assembler := ⟨.start defaultName, []⟩

/-- The constant of a literal. -/
def literal (text : List Char) : Except SourceCause Constant :=
  (readLiteral text).mapError SourceCause.literal

/-- Names a constant. -/
def define (a : Assembler) (name : String) (text : List Char) : Except SourceCause Assembler := do
  if (a.constants.lookup name).isSome then throw (.duplicateConstant name)
  else if text.isEmpty then throw (.missing "const value")
  else
    let value ← literal text
    let (builder, index) := a.builder.addConstant value
    pure ⟨builder, (name, index) :: a.constants⟩

/-- Adds an instruction that refers to a constant by name or by literal. -/
def load (a : Assembler) (opcode : Opcode) (text : List Char) : Except SourceCause Assembler :=
  match a.constants.lookup (String.ofList text) with
  | some index => .ok { a with builder := a.builder.emit opcode index }
  | none => do
    let value ← literal text
    pure { a with builder := (a.builder.emitConstant opcode value).1 }

/-- Carries one statement out. -/
def run (a : Assembler) : Statement → Except SourceCause Assembler
  | .function name => .ok { a with builder := { a.builder with name } }
  | .firstLine line => .ok { a with builder := a.builder.setFirstLine line }
  | .stack depth => .ok { a with builder := a.builder.setStackDepth depth }
  | .line line => .ok { a with builder := a.builder.markLine line }
  | .noLine => .ok { a with builder := a.builder.clearLine }
  | .label name =>
    match a.builder.label name with
    | .ok builder => .ok { a with builder }
    | .error cause => .error (.label cause)
  | .const name text => a.define name text
  | .plain opcode => .ok { a with builder := a.builder.op opcode }
  | .load opcode text => a.load opcode text
  | .named opcode name => .ok { a with builder := (a.builder.emitName opcode name).1 }
  | .counted opcode operand =>
    .ok { a with builder := a.builder.emit opcode (UInt32.ofNat operand) }
  | .jump opcode label => .ok { a with builder := a.builder.jump opcode label }

/-- Carries out what a line says. Tokens left over are refused after the statement itself. -/
def runLine (a : Assembler) (line : List Char) : Except SourceCause Assembler := do
  match ← readStatement (Text.trim (stripComment .outside line)) with
  | none => pure a
  | some (statement, extra) =>
    let a ← a.run statement
    if extra then throw .extraTokens else pure a

/-- Carries out the lines of a text, the first of which has the number `number`. -/
def runLines (number : Nat) : List (List Char) → Assembler → Except SourceFault Assembler
  | [], a => .ok a
  | line :: rest, a =>
    match a.runLine line with
    | .error cause => .error ⟨number, cause⟩
    | .ok a => runLines (number + 1) rest a

end Assembler

/-- The function of a source text. -/
def assemble (source : List Char) : Except SourceFault Function := do
  let a ← Assembler.runLines 1 (Text.linesOf source) Assembler.start
  match a.builder.finish with
  | .ok f => pure f
  | .error cause => throw ⟨0, .assembly cause⟩

end Tripwire
