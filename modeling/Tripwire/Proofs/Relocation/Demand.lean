import Tripwire.Splice.Relocation
import Tripwire.Proofs.Outcome

/-!
# The operands that jumps demand

What relocation does to a jump depends on the changes of size between the jump
and its target, and not on the order in which they come. So the operand that a
jump has to have can be said without relocation: it is the distance before the
edit, with the edit itself where the jump spans it, and with the growth of every
instruction that it spans.

* `Shift.tally`: the changes at some sites, added up; `Shift.image` is one;
* `Slot.Jumps`: a slot with a jump that has to be kept on its target;
* `Slot.reach`, `Slot.span`: its operand before the edit and the sites it spans;
* `swell`: the growth of the instructions at some sites;
* `Slot.demand`: the operand that the jump has to have, given all widths;
* `Settled`: every jump has the operand that it has to have;
* `Slot.Fits`: the width suits the operand.
-/

namespace Tripwire

/-- A choice of places where changes of size may stand. -/
abbrev Site := Placement → Nat → Bool

namespace Shift

/-- The sum of the changes at some sites. -/
def tally (q : Site) (shifts : List Shift) : Int :=
  total (shifts.filter fun s => q s.placement s.offset)

/-- The sites in front of a position. -/
def ahead (position : Nat) : Site
  | .before, offset => decide (offset ≤ position)
  | .within, offset => decide (offset < position)

theorem moves_eq_ahead (s : Shift) (position : Nat) :
    s.moves position = ahead position s.placement s.offset := by
  obtain ⟨offset, delta, placement⟩ := s
  cases placement <;> rfl

theorem image_eq_add_tally (shifts : List Shift) (position : Nat) :
    image shifts position = position + tally (ahead position) shifts := by
  simp only [image, tally, moves_eq_ahead]

@[simp] theorem tally_nil (q : Site) : tally q [] = 0 := rfl

theorem tally_cons (q : Site) (s : Shift) (shifts : List Shift) :
    tally q (s :: shifts) = (if q s.placement s.offset then s.delta else 0) + tally q shifts := by
  by_cases h : q s.placement s.offset = true <;> simp [tally, h]

theorem tally_singleton (q : Site) (s : Shift) :
    tally q [s] = if q s.placement s.offset then s.delta else 0 := by
  rw [tally_cons, tally_nil, Int.add_zero]

@[simp] theorem tally_append (q : Site) (a b : List Shift) :
    tally q (a ++ b) = tally q a + tally q b := by
  simp [tally]

theorem tally_nonneg {q : Site} {shifts : List Shift} (h : ∀ s ∈ shifts, 0 ≤ s.delta) :
    0 ≤ tally q shifts := by
  induction shifts with
  | nil => rfl
  | cons s shifts ih =>
    have hs := h s (List.mem_cons_self ..)
    have hrest := ih fun t ht => h t (List.mem_cons_of_mem _ ht)
    rw [tally_cons]
    split <;> omega

theorem tally_nonpos {q : Site} {shifts : List Shift} (h : ∀ s ∈ shifts, s.delta ≤ 0) :
    tally q shifts ≤ 0 := by
  induction shifts with
  | nil => rfl
  | cons s shifts ih =>
    have hs := h s (List.mem_cons_self ..)
    have hrest := ih fun t ht => h t (List.mem_cons_of_mem _ ht)
    rw [tally_cons]
    split <;> omega

/-- Sites that lie in others can be counted off. -/
theorem tally_sub {q q' : Site} (h : ∀ p o, q' p o = true → q p o = true) (shifts : List Shift) :
    tally (fun p o => q p o && !q' p o) shifts = tally q shifts - tally q' shifts := by
  induction shifts with
  | nil => rfl
  | cons s shifts ih =>
    have := h s.placement s.offset
    simp only [tally_cons, ih]
    cases hq : q s.placement s.offset <;> cases hq' : q' s.placement s.offset <;> simp_all
    omega

end Shift

namespace Slot

/-- The slot holds a jump of the old code, to the target that its origin names. -/
structure Jumps (s : Slot) (o : Origin) (target : Nat) : Prop where
  isJump : s.instruction.flow.isJump = true
  origin_eq : s.origin = some o
  target_eq : o.target = some target

/-- The operand of a jump before the edit. -/
def reach (flow : Flow) (o : Origin) (target : Nat) : Int :=
  match flow with
  | .relativeJump => (target : Int) - (o.offset + o.size)
  | _ => target

/-- The sites that a jump has to account for: those in front of its target and, if the operand
counts from the jump, not in front of the jump's end. -/
def span (flow : Flow) (o : Origin) (target : Nat) : Site :=
  match flow with
  | .absoluteJump => Shift.ahead target
  | .relativeJump => fun p offset => Shift.ahead target p offset && !Shift.ahead o.lastByte p offset
  | .suspension | .other => fun _ _ => false

theorem crosses_eq_span (i : Instruction) (o : Origin) (target : Nat) (change : Shift) :
    crosses i o target change = span i.flow o target change.placement change.offset := by
  unfold crosses span
  split <;> simp_all [Shift.moves_eq_ahead]

/-- The growth of the instruction since the edit began, if it stood at one of the sites. -/
def growth (q : Site) (s : Slot) : Int :=
  match s.origin with
  | none => 0
  | some o => if q .within o.offset then (s.instruction.size : Int) - o.size else 0

end Slot

/-- The growth of the instructions at some sites since the edit began. -/
def swell (q : Site) (slots : List Slot) : Int :=
  slots.foldr (fun s sum => s.growth q + sum) 0

@[simp] theorem swell_nil (q : Site) : swell q [] = 0 := rfl

@[simp] theorem swell_cons (q : Site) (s : Slot) (slots : List Slot) :
    swell q (s :: slots) = s.growth q + swell q slots := rfl

@[simp] theorem swell_append (q : Site) (a b : List Slot) :
    swell q (a ++ b) = swell q a + swell q b := by
  induction a with
  | nil => simp
  | cons s a ih => rw [List.cons_append, swell_cons, ih, swell_cons, Int.add_assoc]

/-- Sites that lie in others can be counted off. -/
theorem swell_sub {q q' : Site} (h : ∀ p o, q' p o = true → q p o = true) (slots : List Slot) :
    swell (fun p o => q p o && !q' p o) slots = swell q slots - swell q' slots := by
  induction slots with
  | nil => rfl
  | cons s slots ih =>
    rw [swell_cons, ih, swell_cons, swell_cons]
    unfold Slot.growth
    cases s.origin with
    | none => simp only; omega
    | some o =>
      have := h .within o.offset
      cases hq : q .within o.offset <;> cases hq' : q' .within o.offset <;> simp_all
      omega

/-- The growth at some sites is that of the instructions which stood there. -/
theorem swell_congr {q q' : Site} {slots : List Slot}
    (h : ∀ s ∈ slots, ∀ o, s.origin = some o → q .within o.offset = q' .within o.offset) :
    swell q slots = swell q' slots := by
  induction slots with
  | nil => rfl
  | cons s slots ih =>
    rw [swell_cons, swell_cons, ih fun t ht => h t (List.mem_cons_of_mem _ ht)]
    unfold Slot.growth
    cases ho : s.origin with
    | none => rfl
    | some o => simp only [h s (List.mem_cons_self ..) o ho]

/-- The operand that a jump has to have when the instructions have the widths in `slots`. -/
def Slot.demand (primary : Shift) (slots : List Slot) (flow : Flow) (o : Origin) (target : Nat) :
    Int :=
  reach flow o target + Shift.tally (span flow o target) [primary] +
    swell (span flow o target) slots

/-- Every jump has the operand that it has to have. -/
def Settled (primary : Shift) (slots : List Slot) : Prop :=
  ∀ s ∈ slots, ∀ o t, s.Jumps o t →
    (s.instruction.operand.toNat : Int) = Slot.demand primary slots s.instruction.flow o t

/-- The instruction is wide enough for its operand and not too wide. -/
structure Slot.Fits (s : Slot) : Prop where
  minimalWidth_le : minimalWidth s.instruction.operand ≤ s.instruction.width
  width_le : s.instruction.width ≤ maximalWidth

end Tripwire
