/-!
# Shifts

A shift records that code grew or shrank at one place. Positions are offsets in
the code before any of the recorded changes.

* `Shift.moves`: which positions move with the change;
* `Shift.image`: where a list of shifts takes a position;
* `Shift.lineOffset`: the offset whose line absorbs the change.
-/

namespace Tripwire

/-- Where the change stands: before the instruction at the offset, which moves with it, or within
that instruction, which changes its width and stays. -/
inductive Placement
  | before
  | within
  deriving DecidableEq, Repr

/-- A change of the code size at an offset. Removal shifts stand at the end of what is removed. -/
structure Shift where
  offset : Nat
  delta : Int
  placement : Placement
  deriving DecidableEq, Repr

namespace Shift

/-- A change in front of the instruction at the offset. -/
def before (offset : Nat) (delta : Int) : Shift := ⟨offset, delta, .before⟩

/-- A change of the width of the instruction at the offset. -/
def within (offset : Nat) (delta : Int) : Shift := ⟨offset, delta, .within⟩

/-- Whether a position moves with the change. -/
def moves (s : Shift) (position : Nat) : Bool :=
  match s.placement with
  | .before => decide (s.offset ≤ position)
  | .within => decide (s.offset < position)

/-- The offset whose line absorbs the change: for a removal the start of what is removed. -/
def lineOffset (s : Shift) : Nat :=
  match s.placement with
  | .before => if s.delta < 0 then s.offset - s.delta.natAbs else s.offset
  | .within => s.offset

/-- The sum of the size changes. -/
def total (shifts : List Shift) : Int := shifts.foldr (fun s sum => s.delta + sum) 0

/-- Where a position comes to stand: every shift that moves it adds its change. -/
def image (shifts : List Shift) (position : Nat) : Int :=
  position + total (shifts.filter fun s => s.moves position)

@[simp] theorem total_nil : total [] = 0 := rfl

@[simp] theorem total_cons (s : Shift) (shifts : List Shift) :
    total (s :: shifts) = s.delta + total shifts := rfl

@[simp] theorem total_append (a b : List Shift) : total (a ++ b) = total a + total b := by
  induction a with
  | nil => simp
  | cons s a ih => simp [ih, Int.add_assoc]

@[simp] theorem image_nil (position : Nat) : image [] position = position := by
  simp [image]

theorem image_cons (s : Shift) (shifts : List Shift) (position : Nat) :
    image (s :: shifts) position =
      image shifts position + if s.moves position then s.delta else 0 := by
  by_cases h : s.moves position
  · simp [image, h]
    omega
  · simp [image, h]

theorem moves_mono {s : Shift} {a b : Nat} (h : a ≤ b) (moved : s.moves a) : s.moves b := by
  unfold moves at *
  split at moved <;> simp_all <;> omega

end Shift

end Tripwire
