import Tripwire.Splice.Relocation

/-!
# Splicing

Code is edited by splicing a block in front of an instruction or by taking a
range of instructions out. Code that may suspend is refused, since a suspended
activation resumes at an offset into the old code.

* `Block.ofCode`: the instructions of code that may be edited;
* `Draft`: an edit prepared up to the relocation of jumps;
* `Block.draftInsert`, `Block.draftRemove`: the two edits;
* `insertAt`, `removeAt`: the edits on code, with their `Edit` as the outcome.
-/

namespace Tripwire

/-- What an edit made: the new code, the changes of size in the order of their application and the
instructions taken out. -/
structure Edit where
  code : List UInt8
  shifts : List Shift
  removed : Block
  deriving DecidableEq, Repr

/-- The change of the code size. -/
def Edit.sizeDelta (e : Edit) : Int := Shift.total e.shifts

/-- An edit before relocation: the instructions in their new order with the operands they had, and
the change of size that the edit itself makes. -/
structure Draft where
  slots : List Slot
  primary : Shift
  removed : Block
  deriving DecidableEq, Repr

namespace Draft

/-- The relocated slots with all changes of size. -/
def relocated (d : Draft) : Except Fault (List Slot × List Shift) := relocate d.primary d.slots

/-- The changes of width that relocation makes, each with the opcode it is made to. -/
def resizes (d : Draft) : List (Opcode × Shift) :=
  match d.relocated with
  | .error _ => []
  | .ok (_, shifts) => shifts.tail.filterMap fun change =>
    let resized := d.slots.find? fun s => s.origin.any fun o => o.offset == change.offset
    resized.map fun s => (s.instruction.opcode, change)

/-- Relocates the jumps, checks the result and writes it as code. -/
def finish (d : Draft) : Except Fault Edit := do
  let (slots, shifts) ← d.relocated
  checkLayout shifts slots
  let block : Block := slots.map Slot.instruction
  block.checkTargets
  pure ⟨block.encode, shifts, d.removed⟩

end Draft

namespace Block

/-- The instructions of code that may be edited. -/
def ofCode (code : List UInt8) : Except Fault Block :=
  match decode code with
  | .error cause => .error (.undecodable cause)
  | .ok b =>
    match (placed b).find? fun (i, _) => i.flow = .suspension with
    | some (i, offset) => .error (.suspends offset i.opcode)
    | none => .ok b

/-- The index of the instruction that starts at an offset. -/
def indexAt (b : Block) (offset : Nat) : Except Fault Nat :=
  match (offsets b).idxOf? offset with
  | some index => .ok index
  | none => .error (.misaligned offset)

/-- The slots of the unedited block. -/
def slots (b : Block) : List Slot := (placed b).map fun (i, offset) => Slot.ofPlaced i offset

/-- Prepares to splice `added` in front of the instruction at `offset`. The block may hold neither
jumps nor instructions that suspend, and its size must fit 32 bits with sign. -/
def draftInsert (b added : Block) (offset : Nat) : Except Fault Draft := do
  let index ← b.indexAt offset
  match added.find? fun i => i.flow ≠ .other with
  | some i => throw (.inconsistent (.blockContains i.opcode))
  | none =>
    let size := added.size
    if size < limit32 / 2 then
      pure ⟨b.slots.take index ++ added.map Slot.fresh ++ b.slots.drop index,
        .before offset size, []⟩
    else throw (.inconsistent (.blockTooLarge size))

/-- Prepares to take out `count` instructions from the one at `offset` on. No jump that stays may
lead to any of them but the first. -/
def draftRemove (b : Block) (offset count : Nat) : Except Fault Draft := do
  let index ← b.indexAt offset
  let stop := index + count
  if b.length < stop then
    throw (.underrun .instructionStream (stop - b.length))
  else
    let removed : Block := (b.drop index).take count
    let size := removed.size
    if size < limit32 / 2 then
      let slots := b.slots.take index ++ b.slots.drop stop
      let lost := fun s : Slot => s.origin.bind fun o =>
        if o.target.any fun t => offset < t && t < offset + size then some (s.instruction, o)
        else none
      match slots.findSome? lost with
      | some (i, o) =>
        throw (.inconsistent (.jumpIntoRemoved i.opcode o.offset offset (offset + size)))
      | none => pure ⟨slots, .before (offset + size) (-size), removed⟩
    else throw (.inconsistent (.removalTooLarge size))

/-- Splices `added` in front of the instruction at `offset`. -/
def insert (b added : Block) (offset : Nat) : Except Fault Edit := do
  (← b.draftInsert added offset).finish

/-- Takes out `count` instructions from the one at `offset` on. -/
def remove (b : Block) (offset count : Nat) : Except Fault Edit := do
  (← b.draftRemove offset count).finish

end Block

/-- Splices `added` into code, in front of the instruction at `offset`. -/
def insertAt (code : List UInt8) (added : Block) (offset : Nat) : Except Fault Edit := do
  (← Block.ofCode code).insert added offset

/-- Takes `count` instructions out of code, from the one at `offset` on. -/
def removeAt (code : List UInt8) (offset count : Nat) : Except Fault Edit := do
  (← Block.ofCode code).remove offset count

end Tripwire
