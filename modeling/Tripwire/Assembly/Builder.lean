import Tripwire.Assembly.Layout
import Tripwire.Block.Binary
import Tripwire.Function
import Tripwire.Pool

/-!
# Building functions

A builder collects the items, labels and pool entries of a function one by one.

* `Builder.emit`, `Builder.jump`, `Builder.label`: items and labels;
* `Builder.addConstant`, `Builder.addName`: pool entries with their indices;
* `Builder.finish`: the function.
-/

namespace Tripwire

/-- A function under construction. `line` is the line of the items to come. -/
structure Builder where
  name : String
  firstLine : Option Nat
  items : Array Item
  constants : List Constant
  names : List String
  labels : Labels
  line : Option Nat
  stackDepth : Option Nat
  deriving DecidableEq, Repr

/-- The highest operand stack along a block when no jump is taken and nothing is taken from an empty
stack. -/
def straightLineDepth (b : Block) : Nat :=
  (b.foldl
    (fun (depth, peak) i =>
      let depth := max 0 (depth + i.stackEffect false)
      (depth, max peak depth))
    ((0 : Int), (0 : Int))).2.toNat

/-- One item in front of spans of bytes with one line each. -/
def spanStep (size : Nat) (line : Option Nat) (spans : List (Nat × Option Nat)) :
    List (Nat × Option Nat) :=
  match spans with
  | (behind, other) :: rest =>
    if other = line then (size + behind, line) :: rest else (size, line) :: spans
  | [] => [(size, line)]

/-- The spans of bytes with one line each, neighbours with the same line put together. -/
def spansOf (sized : List (Nat × Option Nat)) : List (Nat × Option Nat) :=
  sized.foldr (fun (size, line) spans => spanStep size line spans) []

namespace Builder

/-- A builder without items. -/
def start (name : String) : Builder := ⟨name, none, #[], [], [], [], none, none⟩

/-- Sets the line from which the line counter starts. -/
def setFirstLine (b : Builder) (line : Nat) : Builder := { b with firstLine := some line }

/-- Sets the stack budget. -/
def setStackDepth (b : Builder) (depth : Nat) : Builder := { b with stackDepth := some depth }

/-- Sets the line of the items to come. -/
def markLine (b : Builder) (line : Nat) : Builder := { b with line := some line }

/-- Leaves the items to come without a line. -/
def clearLine (b : Builder) : Builder := { b with line := none }

/-- Marks the item to come with a label. -/
def label (b : Builder) (name : String) : Except AssemblyFault Builder :=
  match b.labels.find? name with
  | some _ => .error (.duplicateLabel name)
  | none => .ok { b with labels := (name, b.items.size) :: b.labels }

/-- The index of a constant, which is added unless it is there. -/
def addConstant (b : Builder) (value : Constant) : Builder × UInt32 :=
  match Pool.find? b.constants value with
  | some index => (b, index)
  | none => ({ b with constants := b.constants ++ [value] }, UInt32.ofNat b.constants.length)

/-- The index of a name, which is added unless it is there. -/
def addName (b : Builder) (name : String) : Builder × UInt32 :=
  match Pool.find? b.names name with
  | some index => (b, index)
  | none => ({ b with names := b.names ++ [name] }, UInt32.ofNat b.names.length)

/-- Adds an instruction. -/
def emit (b : Builder) (opcode : Opcode) (operand : UInt32) : Builder :=
  { b with items := b.items.push ⟨opcode, .value operand, b.line⟩ }

/-- Adds an instruction whose operand is zero. -/
def op (b : Builder) (opcode : Opcode) : Builder := b.emit opcode 0

/-- Adds a jump to a label. -/
def jump (b : Builder) (opcode : Opcode) (label : String) : Builder :=
  { b with items := b.items.push ⟨opcode, .label label, b.line⟩ }

/-- Adds an instruction that refers to a constant, and returns the index. -/
def emitConstant (b : Builder) (opcode : Opcode) (value : Constant) : Builder × UInt32 :=
  let (b, index) := b.addConstant value
  (b.emit opcode index, index)

/-- Adds an instruction that refers to a name, and returns the index. -/
def emitName (b : Builder) (opcode : Opcode) (name : String) : Builder × UInt32 :=
  let (b, index) := b.addName name
  (b.emit opcode index, index)

/-- The line from which the counter starts: as set, else the least line of the items, else one. -/
def startLine (b : Builder) : Nat :=
  (b.firstLine.or (b.items.toList.filterMap Item.line).min?).getD 1

/-- The function. -/
def finish (b : Builder) : Except AssemblyFault Function := do
  let items := b.items.toList
  let block ← layout b.labels items
  let spans := spansOf ((block.zip items).map fun (i, item) => (i.size, item.line))
  pure
    { name := b.name
      code := block.encode
      constants := b.constants
      names := b.names
      lines := .ofSpans b.startLine spans
      stackDepth := b.stackDepth.getD (straightLineDepth block) }

end Builder

end Tripwire
