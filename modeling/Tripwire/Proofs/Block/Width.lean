import Tripwire.Proofs.Block.Position
import Tripwire.Proofs.Matching

/-!
# Widths of blocks

Blocks with the same instructions but for their widths, as relocation and the layout
of labels make them.

* `Block.Tight`: no jump is wider than its operand needs;
* `Within`: a block that is nowhere wider than another one;
* `Block.start_eq_of_width_eq`, `Block.start_le_of_within`: the offsets that follow from the widths.
-/

namespace Tripwire

/-- No jump is wider than its operand needs. -/
def Block.Tight (b : Block) : Prop :=
  ∀ i ∈ b, i.flow.isJump = true → i.width = minimalWidth i.operand

/-- No instruction of `c` is wider than that of `b`. -/
def Within (b c : Block) : Prop := List.Forall₂ (fun i i' : Instruction => i'.width ≤ i.width) b c

namespace Within

variable {a b c : Block}

theorem trans (h : Within a b) (h' : Within b c) : Within a c := by
  refine forall₂_trans (fun i i' i'' hab hbc => ?_) h h'
  exact Nat.le_trans hbc hab

end Within

namespace Block

variable {b c : Block}

theorem start_eq_of_width_eq
    (h : List.Forall₂ (fun i i' : Instruction => i'.width = i.width) b c) (k : Nat) :
    start c k = start b k := by
  induction h generalizing k with
  | nil => rfl
  | cons hi _ ih =>
    cases k with
    | zero => rfl
    | succ k => rw [start_cons_succ, start_cons_succ, ih, Instruction.size, Instruction.size, hi]

theorem start_le_of_within (h : Within b c) (k : Nat) : start c k ≤ start b k := by
  induction h generalizing k with
  | nil => exact le_rfl
  | cons hi _ ih =>
    cases k with
    | zero => exact le_rfl
    | succ k =>
      rw [start_cons_succ, start_cons_succ]
      exact Nat.add_le_add (Nat.mul_le_mul_right _ hi) (ih k)

theorem size_le_of_within (h : Within b c) : c.size ≤ b.size := by
  have hstart := start_le_of_within h b.length
  rwa [start_length, List.Forall₂.length_eq h, start_length] at hstart

/-- The wider of two blocks has the greater distances. -/
theorem start_add_start_le_of_within (h : Within b c) {k m : Nat} (hkm : k ≤ m) :
    start c m + start b k ≤ start b m + start c k := by
  obtain ⟨d, rfl⟩ := Nat.exists_eq_add_of_le hkm
  have hdrop : Within (b.drop k) (c.drop k) := List.forall₂_drop k h
  have htail := start_le_of_within hdrop d
  rw [start_add, start_add]
  omega

end Block

end Tripwire
