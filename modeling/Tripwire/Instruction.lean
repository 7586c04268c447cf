import Tripwire.Opcode

/-!
# Instructions

An instruction is an opcode with a 32-bit operand and a width in words. The
operand needs `minimalWidth` words; a wider instruction is padded with words
that carry zero bytes.

* `Instruction.size`: the length in bytes;
* `Instruction.target?`: where a jump leads.
-/

namespace Tripwire

/-- The number of bytes in a word of code. -/
def wordSize : Nat := 2

/-- Offsets, operands, line numbers and stack budgets are below this bound. -/
def limit32 : Nat := 0x100000000

/-- An opcode with its operand. `width` counts the words of the encoding, those of `extendedArg`
included. -/
structure Instruction where
  opcode : Opcode
  operand : UInt32
  width : Nat
  deriving DecidableEq, Repr

/-- The least number of words that hold an operand, one byte to a word. -/
def minimalWidth (operand : UInt32) : Nat :=
  if operand > 0xFFFFFF then 4
  else if operand > 0xFFFF then 3
  else if operand > 0xFF then 2
  else 1

namespace Instruction

/-- An instruction of the least width. -/
def narrow (opcode : Opcode) (operand : UInt32) : Instruction :=
  ⟨opcode, operand, minimalWidth operand⟩

/-- An instruction whose operand is zero. -/
def bare (opcode : Opcode) : Instruction :=
  narrow opcode 0

/-- The length in bytes. -/
def size (i : Instruction) : Nat := i.width * wordSize

/-- How control passes on. -/
def flow (i : Instruction) : Flow := i.opcode.flow

/-- The offset a jump at `offset` leads to. A relative jump counts from the next instruction and
leads nowhere past the 32-bit range. -/
def target? (i : Instruction) (offset : Nat) : Option Nat :=
  match i.flow with
  | .absoluteJump => some i.operand.toNat
  | .relativeJump =>
    let target := offset + i.size + i.operand.toNat
    if target < limit32 then some target else none
  | .suspension | .other => none

/-- The net change of the operand stack. -/
def stackEffect (i : Instruction) (taken : Bool) : Int :=
  i.opcode.stackEffect i.operand.toNat taken

@[simp] theorem size_narrow (op : Opcode) (arg : UInt32) :
    (narrow op arg).size = minimalWidth arg * wordSize := rfl

end Instruction

/-! ### Widths -/

theorem one_le_minimalWidth (arg : UInt32) : 1 ≤ minimalWidth arg := by
  unfold minimalWidth
  split <;> (try split) <;> (try split) <;> decide

theorem minimalWidth_le_four (arg : UInt32) : minimalWidth arg ≤ 4 := by
  unfold minimalWidth
  split <;> (try split) <;> (try split) <;> decide

/-- An operand fits a width of at most four words exactly when nothing is left above their bytes. -/
theorem minimalWidth_le_iff {arg : UInt32} {w : Nat} (h : 1 ≤ w) (h' : w ≤ 4) :
    minimalWidth arg ≤ w ↔ arg.toNat >>> (8 * w) = 0 := by
  have bound := arg.toNat_lt
  have cases : w = 1 ∨ w = 2 ∨ w = 3 ∨ w = 4 := by omega
  unfold minimalWidth
  simp only [gt_iff_lt, UInt32.lt_iff_toNat_lt, UInt32.reduceToNat]
  rcases cases with rfl | rfl | rfl | rfl <;> split <;> (try split) <;> (try split) <;> omega

/-- Larger operands need no fewer words. -/
theorem minimalWidth_mono {a b : UInt32} (h : a.toNat ≤ b.toNat) :
    minimalWidth a ≤ minimalWidth b := by
  have fits := (minimalWidth_le_iff (one_le_minimalWidth b) (minimalWidth_le_four b)).1 (Nat.le_refl _)
  refine (minimalWidth_le_iff (one_le_minimalWidth b) (minimalWidth_le_four b)).2 ?_
  rw [Nat.shiftRight_eq_div_pow] at fits ⊢
  exact Nat.eq_zero_of_le_zero (fits ▸ Nat.div_le_div_right h)

end Tripwire
