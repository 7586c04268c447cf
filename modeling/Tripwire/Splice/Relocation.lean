import Tripwire.Block.Binary
import Tripwire.Shift

/-!
# Relocation

After instructions have been added to a block or taken out of it, the jumps that
cross the change are given new operands. A jump whose operand then needs more
or fewer words changes its own width, which is a change for the jumps that cross
it in turn.

* `Slot`: an instruction of the edited block with what it was before;
* `Slot.shift`: one instruction under one change of size;
* `relocate`: all changes until none is pending;
* `checkLayout`: every instruction and every target stand where the changes put
  them.
-/

namespace Tripwire

/-- Where an instruction stood in the block before the edit. -/
structure Origin where
  offset : Nat
  size : Nat
  target : Option Nat
  deriving DecidableEq, Repr

/-- The offset of the last byte of the instruction. -/
def Origin.lastByte (o : Origin) : Nat := o.offset + o.size - 1

/-- An instruction of the edited block. Instructions that the edit brings in have no origin. -/
structure Slot where
  instruction : Instruction
  origin : Option Origin
  deriving DecidableEq, Repr

namespace Slot

/-- The slot of an instruction that stands at `offset`. -/
def ofPlaced (i : Instruction) (offset : Nat) : Slot :=
  ⟨i, some ⟨offset, i.size, i.target? offset⟩⟩

/-- The slot of an instruction that the edit brings in. -/
def fresh (i : Instruction) : Slot := ⟨i, none⟩

/-- Whether the change of size lies between a jump and its target, so that the operand has to
account for it. Absolute operands count from the start of the code. -/
def crosses (i : Instruction) (o : Origin) (target : Nat) (change : Shift) : Bool :=
  match i.flow with
  | .absoluteJump => change.moves target
  | .relativeJump => change.moves target && !change.moves o.lastByte
  | .suspension | .other => false

/-- The width for a new operand: while the code grows an instruction never gets narrower. -/
def newWidth (growing : Bool) (current : Nat) (operand : UInt32) : Nat :=
  if growing then max (minimalWidth operand) current else minimalWidth operand

/-- The operand after a change of size, if it still fits. -/
def movedOperand? (i : Instruction) (change : Shift) : Option UInt32 :=
  let moved := i.operand.toNat + change.delta
  if 0 ≤ moved ∧ moved < limit32 then some (UInt32.ofNat moved.toNat) else none

/-- The slot after a change of size, with the change of its own width if there is one. -/
def shift (growing : Bool) (change : Shift) (s : Slot) : Except Fault (Slot × Option Shift) :=
  match s.origin with
  | none => .ok (s, none)
  | some o =>
    match o.target with
    | none => .ok (s, none)
    | some target =>
      let i := s.instruction
      if crosses i o target change then
        match movedOperand? i change with
        | none =>
          .error (.inconsistent (.operandRange (i.operand.toNat + change.delta) i.opcode o.offset))
        | some operand =>
          let width := newWidth growing i.width operand
          let resized :=
            if width = i.width then none
            else some (Shift.within o.offset ((width - i.width : Int) * wordSize))
          .ok (⟨⟨i.opcode, operand, width⟩, s.origin⟩, resized)
      else .ok (s, none)

end Slot

/-- All slots under one change of size, with the changes of width that follow from it. -/
def sweep (growing : Bool) (change : Shift) (slots : List Slot) :
    Except Fault (List Slot × List Shift) := do
  let shifted ← slots.mapM (Slot.shift growing change)
  pure (shifted.map Prod.fst, shifted.filterMap Prod.snd)

/-- Applies the pending changes first in, first out, each followed by the changes of width that it
causes. Returns the slots with all changes in the order of their application. -/
def settle (growing : Bool) : Nat → List Shift → List Slot →
    Except Fault (List Slot × List Shift)
  | _, [], slots => .ok (slots, [])
  | 0, _ :: _, _ => .error (.inconsistent .relocationUnsettled)
  | rounds + 1, change :: pending, slots => do
    let (slots, caused) ← sweep growing change slots
    let (slots, applied) ← settle growing rounds (pending ++ caused) slots
    pure (slots, change :: applied)

/-- The number of changes within which relocation settles: the edit itself and three changes of
width for each slot, with one to spare. -/
def relocationRounds (slots : List Slot) : Nat := 2 + 3 * slots.length

/-- Gives every jump that crosses the edit its new operand. -/
def relocate (primary : Shift) (slots : List Slot) : Except Fault (List Slot × List Shift) :=
  settle (decide (0 < primary.delta)) (relocationRounds slots) [primary] slots

/-- Whether an instruction stands, and its jump leads, where the changes put them. -/
def checkSlot (shifts : List Shift) (s : Slot) (offset : Nat) : Except Fault Unit :=
  match s.origin with
  | none => .ok ()
  | some o =>
    let expected := Shift.image shifts o.offset
    if (offset : Int) = expected then
      match o.target with
      | none => .ok ()
      | some target =>
        let expected := Shift.image shifts target
        let actual := s.instruction.target? offset
        if actual.map Int.ofNat = some expected then .ok ()
        else .error (.inconsistent (.misrouted s.instruction.opcode offset actual expected))
    else .error (.inconsistent (.misplaced o.offset offset expected))

/-- Checks all slots, each at the offset that the sizes in front of it give. -/
def checkLayout (shifts : List Shift) (slots : List Slot) : Except Fault Unit :=
  (slots.zip (Block.offsets (slots.map Slot.instruction))).forM fun (s, offset) =>
    checkSlot shifts s offset

namespace Block

/-- Whether the jump at `offset` leads to one of the given starts. -/
def checkTarget (starts : Std.HashSet Nat) (i : Instruction) (offset : Nat) : Except Fault Unit :=
  if i.flow.isJump then
    let target := i.target? offset
    if target.any starts.contains then .ok ()
    else .error (.inconsistent (.badTarget i.opcode offset target))
  else .ok ()

/-- Checks that every jump leads to the start of an instruction. -/
def checkTargets (b : Block) : Except Fault Unit :=
  let starts := boundaries b
  (placed b).forM fun (i, offset) => checkTarget starts i offset

end Block

end Tripwire
