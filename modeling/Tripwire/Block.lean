import Tripwire.Instruction
import Std.Data.HashSet

/-!
# Blocks

A block is a list of instructions laid end to end. Offsets use the stated
widths and count from the start of the block.

* `Block.size`, `Block.offsets`: the length in bytes and the start of every
  instruction;
* `Block.size32`: the length as it is told, in 32 bits, with `toNat_size32_eq_iff`;
* `Block.boundaries`: the set of these starts, with `mem_boundaries`;
* `Block.stackGrowth`: the highest rise of the operand stack along the block.
-/

namespace Tripwire

/-- Instructions laid end to end. -/
abbrev Block := List Instruction

namespace Block

/-- The length in bytes. -/
def size (b : Block) : Nat := b.foldr (fun i sum => i.size + sum) 0

/-- The length in bytes as a number of 32 bits. A sum that reaches `limit32` starts again from
zero. -/
def size32 (b : Block) : UInt32 := b.foldr (fun i sum => UInt32.ofNat i.size + sum) 0

/-- The start of every instruction when the first one stands at `start`. -/
def offsetsFrom (start : Nat) : Block → List Nat
  | [] => []
  | i :: b => start :: offsetsFrom (start + i.size) b

/-- The start of every instruction. -/
def offsets (b : Block) : List Nat := offsetsFrom 0 b

/-- Every instruction with its start. -/
def placed (b : Block) : List (Instruction × Nat) := b.zip (offsets b)

/-- The starts of the instructions, as a set. -/
def boundaries (b : Block) : Std.HashSet Nat := Std.HashSet.ofList (offsets b)

/-- The highest rise of the operand stack along the block when no jump is taken: the greatest sum of
the effects of a leading part. -/
def stackGrowth (b : Block) : Nat :=
  (b.foldl
    (fun (depth, peak) i =>
      let depth := depth + i.stackEffect false
      (depth, max peak depth))
    ((0 : Int), (0 : Int))).2.toNat

@[simp] theorem size_nil : size [] = 0 := rfl

@[simp] theorem size_cons (i : Instruction) (b : Block) : size (i :: b) = i.size + size b := rfl

@[simp] theorem size_append (a b : Block) : size (a ++ b) = size a + size b := by
  induction a with
  | nil => simp
  | cons i a ih => simp [ih, Nat.add_assoc]

theorem size32_eq (b : Block) : b.size32 = UInt32.ofNat b.size := by
  induction b with
  | nil => rfl
  | cons i b ih =>
    rw [size_cons, UInt32.ofNat_add, ← ih]
    rfl

/-- Up to the limit the length is told in full, and from there on it is not. -/
theorem toNat_size32_eq_iff {b : Block} : b.size32.toNat = b.size ↔ b.size < limit32 := by
  rw [size32_eq, UInt32.toNat_ofNat']
  exact Nat.mod_eq_iff_lt (by decide)

@[simp] theorem offsetsFrom_nil (start : Nat) : offsetsFrom start [] = [] := rfl

@[simp] theorem offsetsFrom_cons (start : Nat) (i : Instruction) (b : Block) :
    offsetsFrom start (i :: b) = start :: offsetsFrom (start + i.size) b := rfl

@[simp] theorem length_offsetsFrom (start : Nat) (b : Block) :
    (offsetsFrom start b).length = b.length := by
  induction b generalizing start with
  | nil => rfl
  | cons i b ih => simp [ih]

theorem offsetsFrom_append (start : Nat) (a b : Block) :
    offsetsFrom start (a ++ b) = offsetsFrom start a ++ offsetsFrom (start + size a) b := by
  induction a generalizing start with
  | nil => simp
  | cons i a ih => simp [ih, Nat.add_assoc]

@[simp] theorem length_offsets (b : Block) : (offsets b).length = b.length :=
  length_offsetsFrom 0 b

@[simp] theorem mem_boundaries {b : Block} {offset : Nat} :
    offset ∈ boundaries b ↔ offset ∈ offsets b := by
  simp [boundaries, Std.HashSet.mem_ofList]

end Block

end Tripwire
