import Tripwire.Instruction

/-!
# Items of assembly

An item is an instruction whose operand may still be a label. A label marks the
item that follows it.

* `Item`, `Labels`: the items of a function and the marks among them;
* `AssemblyFault`: why items are no function.
-/

namespace Tripwire

/-- The operand of an item. -/
inductive ItemOperand
  | value (operand : UInt32)
  | label (name : String)
  deriving DecidableEq, Repr

/-- An instruction whose operand may still be a label, with the line it is written at. -/
structure Item where
  opcode : Opcode
  operand : ItemOperand
  line : Option Nat
  deriving DecidableEq, Repr

/-- The label that an item refers to. -/
def Item.label? (item : Item) : Option String :=
  match item.operand with
  | .value _ => none
  | .label name => some name

/-- Labels with the index of the item that each marks. -/
abbrev Labels := List (String × Nat)

/-- The index of the item that a label marks. -/
def Labels.find? (labels : Labels) (name : String) : Option Nat := labels.lookup name

/-- Why items are no function. -/
inductive AssemblyFault
  | duplicateLabel (name : String)
  | unknownLabel (name : String)
  /-- No item follows the label. -/
  | danglingLabel (name : String)
  | backwardJump (name : String)
  | notAJump (opcode : Opcode)
  | layoutUnsettled
  deriving DecidableEq, Repr

namespace AssemblyFault

/-- The family of the fault. -/
def kind : AssemblyFault → String
  | .duplicateLabel _ => "DuplicateLabel"
  | .unknownLabel _ => "UnknownLabel"
  | .danglingLabel _ => "DanglingLabel"
  | .backwardJump _ => "BackwardRelativeJump"
  | .notAJump _ => "NotAJump"
  | .layoutUnsettled => "LayoutUnsettled"

/-- The message for a reader. -/
def message : AssemblyFault → String
  | .duplicateLabel name => s!"duplicate label '{name}'"
  | .unknownLabel name => s!"unknown label '{name}'"
  | .danglingLabel name => s!"label '{name}' is not followed by an instruction"
  | .backwardJump name => s!"relative jumps only go forward, but '{name}' is behind"
  | .notAJump opcode => s!"{opcode.mnemonic} does not take a jump target"
  | .layoutUnsettled => "label layout did not settle"

end AssemblyFault

end Tripwire
