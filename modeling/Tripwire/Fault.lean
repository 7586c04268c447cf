import Tripwire.Opcode

/-!
# Faults

Everything that can go wrong with code, line tables and breakpoints, as causes.

* `DecodeFault`: why bytes are no code;
* `Inconsistency`: why code, tables and breakpoints do not fit together;
* `Fault`: why an edit is refused, with its `kind`, its `message` and its
  `diagnostic`, the constructor notation that the command line reports.
-/

namespace Tripwire

/-- The two lower-case hexadecimal digits of a byte. -/
def hexByte (b : UInt8) : String :=
  String.ofList [Nat.digitChar (b.toNat / 16), Nat.digitChar (b.toNat % 16)]

/-- An optional number, as messages write it. -/
def optionText {α : Type} [ToString α] : Option α → String
  | some n => s!"Some({n})"
  | none => "None"

/-! ### Undecodable bytes -/

/-- Why bytes are no code. Offsets are told in 32 bits. -/
inductive DecodeFault
  | oddLength (length : Nat)
  | danglingPrefix (offset : UInt32)
  | invalidOpcode (offset : UInt32) (byte : UInt8)
  | operandOverflow (offset : UInt32)
  deriving DecidableEq, Repr

namespace DecodeFault

/-- The name of the fault. -/
def kind : DecodeFault → String
  | .oddLength _ => "OddLength"
  | .danglingPrefix _ => "DanglingPrefix"
  | .invalidOpcode .. => "InvalidOpcode"
  | .operandOverflow _ => "OperandOverflow"

/-- The message for a reader. -/
def message : DecodeFault → String
  | .oddLength length => s!"stream length {length} is not a whole number of words"
  | .danglingPrefix offset => s!"extended_arg at offset {offset} has no instruction to extend"
  | .invalidOpcode offset byte => s!"invalid opcode 0x{hexByte byte} at offset {offset}"
  | .operandOverflow offset =>
    s!"instruction at offset {offset} carries more than 3 extended_arg prefixes"

/-- The fault with its data in constructor notation. -/
def diagnostic (fault : DecodeFault) : String :=
  match fault with
  | .oddLength length => s!"{fault.kind}({length})"
  | .danglingPrefix offset | .operandOverflow offset =>
    s!"{fault.kind} \x7b offset: {offset} \x7d"
  | .invalidOpcode offset byte =>
    s!"{fault.kind} \x7b offset: {offset}, opcode: {byte} \x7d"

end DecodeFault

/-! ### Things that do not fit together -/

/-- Why code, tables and breakpoints do not fit together. -/
inductive Inconsistency
  /-- A block to be spliced in holds a jump or suspends. -/
  | blockContains (opcode : Opcode)
  | blockTooLarge (size : Nat)
  | removalTooLarge (size : Nat)
  /-- A jump that stays leads into the middle of what goes. -/
  | jumpIntoRemoved (opcode : Opcode) (origin start stop : Nat)
  | relocationUnsettled
  | operandRange (operand : Int) (opcode : Opcode) (origin : Nat)
  | misplaced (origin offset : Nat) (expected : Int)
  | misrouted (opcode : Opcode) (offset : Nat) (actual : Option Nat) (expected : Int)
  /-- A jump leads to no instruction. -/
  | badTarget (opcode : Opcode) (offset : Nat) (target : Option Nat)
  | runTooLong (offset : Nat)
  | constantRange (index size : Nat)
  | stackBudgetOverflow
  | sizeMismatch (id injected found : Nat)
  | missingCall (id line : Nat)
  deriving DecidableEq, Repr

/-- The message for a reader. -/
def Inconsistency.message : Inconsistency → String
  | .blockContains opcode => s!"spliced block may not contain {opcode.mnemonic}"
  | .blockTooLarge size => s!"block of {size} bytes is too large"
  | .removalTooLarge size => s!"removal of {size} bytes is too large"
  | .jumpIntoRemoved opcode origin start stop =>
    s!"{opcode.mnemonic} at offset {origin} jumps into the removed range {start}..{stop}"
  | .relocationUnsettled => "jump relocation did not settle"
  | .operandRange operand opcode origin =>
    s!"relocated operand {operand} of {opcode.mnemonic} at offset {origin} does not fit 32 bits"
  | .misplaced origin offset expected =>
    s!"instruction from offset {origin} landed at {offset}, expected {expected}"
  | .misrouted opcode offset actual expected =>
    s!"{opcode.mnemonic} at offset {offset} reaches {optionText actual}, expected {expected}"
  | .badTarget opcode offset target =>
    s!"{opcode.mnemonic} at offset {offset} targets {optionText target}, which is not an instruction boundary"
  | .runTooLong offset => s!"line table run at offset {offset} exceeds u32"
  | .constantRange index size =>
    s!"constant index {index} is out of range for a pool of {size}"
  | .stackBudgetOverflow => "stack depth budget overflows u32"
  | .sizeMismatch id injected found =>
    s!"breakpoint {id} injected {injected} bytes but {found} were found"
  | .missingCall id line => s!"no call sequence for breakpoint {id} at line {line}"

/-! ### Refused edits -/

/-- The quantities that may not fall below zero. -/
inductive Quantity
  | instructionStream
  | lineTableRun
  | stackBudget
  deriving DecidableEq, Repr

/-- What a message calls the quantity. -/
def Quantity.name : Quantity → String
  | .instructionStream => "instruction stream"
  | .lineTableRun => "line table run"
  | .stackBudget => "stack depth budget"

/-- Why an edit is refused. -/
inductive Fault
  /-- No instruction starts at the offset. -/
  | misaligned (offset : Nat)
  | lineNotFound (line : Nat)
  | offsetNotFound (offset : Nat)
  | alreadyActive (id : Nat)
  | notActive (id : Nat)
  /-- The code suspends at the offset, so copies of its state may be on hold. -/
  | suspends (offset : Nat) (opcode : Opcode)
  | underrun (quantity : Quantity) (missing : Nat)
  | inconsistent (cause : Inconsistency)
  | undecodable (cause : DecodeFault)
  deriving DecidableEq, Repr

namespace Fault

/-- The family of the fault. -/
def kind : Fault → String
  | .misaligned _ => "OffsetMisaligned"
  | .lineNotFound _ | .offsetNotFound _ => "NotFound"
  | .alreadyActive _ => "AlreadyActive"
  | .notActive _ => "NotActive"
  | .suspends .. => "UnsupportedConstruct"
  | .underrun .. => "Underrun"
  | .inconsistent _ | .undecodable _ => "Consistency"

/-- The message for a reader. -/
def message : Fault → String
  | .misaligned offset => s!"no instruction boundary at byte offset {offset}"
  | .lineNotFound line => s!"no code is attributed to line {line} or any later line"
  | .offsetNotFound offset => s!"byte offset {offset} is outside the line table"
  | .alreadyActive id => s!"breakpoint {id} is already active"
  | .notActive id => s!"breakpoint {id} is not active"
  | .suspends offset opcode =>
    s!"function suspends at offset {offset} ({opcode.mnemonic}); resumable functions cannot be instrumented"
  | .underrun quantity missing => s!"{quantity.name} would underrun by {missing}"
  | .inconsistent cause => s!"inconsistent bytecode: {cause.message}"
  | .undecodable cause => s!"undecodable bytecode: {cause.message}"

end Fault

end Tripwire
