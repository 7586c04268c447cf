import Tripwire.Assembly.Item
import Tripwire.Block

/-!
# Layout of labels

The operand of a jump depends on the offsets of the items, and these depend on
the widths that the operands need. The layout starts from the least widths and
widens jumps until every operand fits.

* `targetsOf`: the items that the labels mark;
* `Layout.pass`: new operands for the offsets of the widths at hand;
* `Layout.settle`: passes until no width changes;
* `layout`: the instructions of the items.
-/

namespace Tripwire

/-- The item that a jump leads to, with the label that says so. -/
structure LabelTarget where
  index : Nat
  label : String
  deriving DecidableEq, Repr

/-- The target of an item among `count` items. Only jumps may refer to labels, and an item has to
follow the label. -/
def Item.target (labels : Labels) (count : Nat) (item : Item) :
    Except AssemblyFault (Option LabelTarget) :=
  match item.operand with
  | .value _ => .ok none
  | .label name =>
    if item.opcode.flow.isJump then
      match labels.find? name with
      | none => .error (.unknownLabel name)
      | some index =>
        if index < count then .ok (some ⟨index, name⟩) else .error (.danglingLabel name)
    else .error (.notAJump item.opcode)

/-- The targets of all items. -/
def targetsOf (labels : Labels) (items : List Item) :
    Except AssemblyFault (List (Option LabelTarget)) :=
  items.mapM (Item.target labels items.length)

/-- The instruction of an item before layout. Labels count as zero. -/
def Item.draft (item : Item) : Instruction :=
  match item.operand with
  | .value operand => .narrow item.opcode operand
  | .label _ => .bare item.opcode

namespace Layout

/-- The instruction with a new operand, as wide as before or as the operand needs. -/
def widen (i : Instruction) (operand : UInt32) : Instruction :=
  { i with operand, width := max i.width (minimalWidth operand) }

/-- A jump at `offset` with the operand that leads to its target, the items standing at
`starts`. -/
def place (starts : Array Nat) (i : Instruction) (offset : Nat) :
    Option LabelTarget → Except AssemblyFault Instruction
  | none => .ok i
  | some target =>
    let goal := starts.getD target.index 0
    match i.flow with
    | .absoluteJump => .ok (widen i (UInt32.ofNat goal))
    | _ =>
      let next := offset + i.size
      if next ≤ goal then .ok (widen i (UInt32.ofNat (goal - next)))
      else .error (.backwardJump target.label)

/-- All jumps with the operands for the present widths. -/
def pass (targets : List (Option LabelTarget)) (b : Block) : Except AssemblyFault Block :=
  let starts := b.offsets.toArray
  (b.placed.zip targets).mapM fun ((i, offset), target) => place starts i offset target

/-- Passes until one changes no width. -/
def settle (targets : List (Option LabelTarget)) : Nat → Block → Except AssemblyFault Block
  | 0, _ => .error .layoutUnsettled
  | passes + 1, b => do
    let next ← pass targets b
    if next.map Instruction.width = b.map Instruction.width then pure next
    else settle targets passes next

/-- The number of passes within which the layout settles: each but the last widens a jump, and none
is widened more than three times. -/
def passLimit (targets : List (Option LabelTarget)) : Nat := 3 * targets.countP Option.isSome + 1

end Layout

/-- The instructions of some items, every label replaced by what leads to it. -/
def layout (labels : Labels) (items : List Item) : Except AssemblyFault Block := do
  let targets ← targetsOf labels items
  Layout.settle targets (Layout.passLimit targets) (items.map Item.draft)

end Tripwire
