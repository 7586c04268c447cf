import Tripwire.Proofs.Matching
import Tripwire.Proofs.Relocation.Demand

/-!
# One change of size after another

Relocation applies the pending changes until none is left. What it keeps is a
balance: the changes applied and pending are the edit itself and the growth of
the instructions, and every jump has accounted for those that have been applied.
When nothing is pending any more, every jump has the operand it has to have.

* `Slot.shift_spec`: what one change does to one slot;
* `Slot.Follows`: a slot keeps its opcode and origin, and all of itself unless it is a jump;
* `Balanced`: the balance, with `Balanced.sweep` for one change;
* `Balanced.settled`: the operands at the end.
-/

namespace Tripwire

namespace Slot

/-- The slot `s` comes from `s₀`: only the operand and the width of a jump may differ. -/
structure Follows (s₀ s : Slot) : Prop where
  origin_eq : s.origin = s₀.origin
  opcode_eq : s.instruction.opcode = s₀.instruction.opcode
  eq_of_not_jumps : (∀ o t, ¬ s₀.Jumps o t) → s = s₀

namespace Follows

variable {s₀ s s₁ : Slot}

theorem refl (s : Slot) : Follows s s := ⟨rfl, rfl, fun _ => rfl⟩

theorem flow_eq (h : Follows s₀ s) : s.instruction.flow = s₀.instruction.flow :=
  congrArg Opcode.flow h.opcode_eq

theorem jumps_iff (h : Follows s₀ s) {o : Origin} {t : Nat} : s.Jumps o t ↔ s₀.Jumps o t := by
  constructor
  · rintro ⟨hj, ho, ht⟩
    exact ⟨h.flow_eq ▸ hj, h.origin_eq ▸ ho, ht⟩
  · rintro ⟨hj, ho, ht⟩
    exact ⟨h.flow_eq.symm ▸ hj, h.origin_eq.symm ▸ ho, ht⟩

theorem trans (h : Follows s₀ s₁) (h' : Follows s₁ s) : Follows s₀ s :=
  ⟨h'.origin_eq.trans h.origin_eq, h'.opcode_eq.trans h.opcode_eq, fun hn => by
    have h1 := h.eq_of_not_jumps hn
    subst h1
    exact h'.eq_of_not_jumps hn⟩

end Follows

/-! ### One slot under one change -/

variable {growing : Bool} {change : Shift} {s s' : Slot} {resized : Option Shift}

/-- The change does not lie between the slot's jump and its target. -/
def Untouched (s : Slot) (change : Shift) : Prop :=
  ∀ o t, s.Jumps o t → span s.instruction.flow o t change.placement change.offset = false

theorem shift_of_untouched (h : s.Untouched change) : shift growing change s = .ok (s, none) := by
  unfold shift
  cases ho : s.origin with
  | none => rfl
  | some o =>
    cases ht : o.target with
    | none => simp [ht]
    | some t =>
      have hcross : crosses s.instruction o t change = false := by
        rw [crosses_eq_span]
        by_cases hj : s.instruction.flow.isJump = true
        · exact h o t ⟨hj, ho, ht⟩
        · cases hf : s.instruction.flow <;> simp_all [span, Flow.isJump]
      simp [ht, hcross]

/-- The slot after a change that its jump spans. -/
def moved (growing : Bool) (s : Slot) (operand : UInt32) : Slot :=
  ⟨⟨s.instruction.opcode, operand, newWidth growing s.instruction.width operand⟩, s.origin⟩

/-- The change of its own width that a slot gives rise to. -/
def resizing (s s' : Slot) (o : Origin) : Option Shift :=
  if s'.instruction.width = s.instruction.width then none
  else some (.within o.offset
    ((s'.instruction.width - s.instruction.width : Int) * wordSize))

theorem movedOperand?_eq_some_iff {i : Instruction} {operand : UInt32} :
    movedOperand? i change = some operand ↔
      (operand.toNat : Int) = i.operand.toNat + change.delta := by
  have hlt := operand.toNat_lt
  have hlimit : limit32 = 2 ^ 32 := rfl
  unfold movedOperand?
  constructor
  · intro h
    by_cases hrange : 0 ≤ (i.operand.toNat : Int) + change.delta ∧
        (i.operand.toNat : Int) + change.delta < limit32
    · rw [if_pos hrange, Option.some.injEq] at h
      rw [← h, UInt32.toNat_ofNat_of_lt' (by simp only [UInt32.size]; omega)]
      omega
    · rw [if_neg hrange] at h
      cases h
  · intro h
    rw [if_pos (by omega), ← h, Int.toNat_natCast, UInt32.ofNat_toNat]

theorem shift_of_spans {o : Origin} {t : Nat} {operand : UInt32} (hj : s.Jumps o t)
    (hspan : span s.instruction.flow o t change.placement change.offset = true)
    (hop : (operand.toNat : Int) = s.instruction.operand.toNat + change.delta) :
    shift growing change s =
      .ok (moved growing s operand, resizing s (moved growing s operand) o) := by
  have hcross := (crosses_eq_span s.instruction o t change).trans hspan
  unfold shift
  rw [hj.origin_eq]
  simp only [hj.target_eq, hcross, if_true, movedOperand?_eq_some_iff.2 hop]
  simp only [moved, resizing, hj.origin_eq]

/-- What one change does to one slot: nothing, unless the slot's jump spans the change. -/
theorem shift_spec (h : shift growing change s = .ok (s', resized)) :
    (s.Untouched change ∧ s' = s ∧ resized = none) ∨
      ∃ o t operand, s.Jumps o t ∧
        span s.instruction.flow o t change.placement change.offset = true ∧
        (operand.toNat : Int) = s.instruction.operand.toNat + change.delta ∧
        s' = moved growing s operand ∧ resized = resizing s s' o := by
  by_cases hun : s.Untouched change
  · rw [shift_of_untouched hun] at h
    cases h
    exact .inl ⟨hun, rfl, rfl⟩
  · simp only [Untouched, not_forall, Bool.not_eq_false] at hun
    obtain ⟨o, t, hj, hspan⟩ := hun
    cases hop : movedOperand? s.instruction change with
    | none =>
      have hcross := (crosses_eq_span s.instruction o t change).trans hspan
      unfold shift at h
      rw [hj.origin_eq] at h
      simp [hj.target_eq, hcross, hop] at h
    | some operand =>
      have heq := movedOperand?_eq_some_iff.1 hop
      rw [shift_of_spans hj hspan heq] at h
      cases h
      exact .inr ⟨o, t, operand, hj, hspan, heq, rfl, rfl⟩

theorem follows_of_shift (h : shift growing change s = .ok (s', resized)) : s.Follows s' := by
  rcases shift_spec h with ⟨-, rfl, -⟩ | ⟨o, t, operand, hj, -, -, rfl, -⟩
  · exact .refl _
  · exact ⟨rfl, rfl, fun hn => absurd hj (hn o t)⟩

/-- The change of its own width that a slot gives rise to is its growth. -/
theorem growth_of_shift (q : Site) (h : shift growing change s = .ok (s', resized)) :
    s'.growth q = s.growth q + Shift.tally q resized.toList := by
  rcases shift_spec h with ⟨-, rfl, rfl⟩ | ⟨o, t, operand, hj, -, -, rfl, rfl⟩
  · simp
  · have horigin : (moved growing s operand).origin = some o := hj.origin_eq
    simp only [growth, horigin, hj.origin_eq, resizing, Instruction.size, Shift.within]
    split
    · rename_i hq
      split
      · rename_i hw
        simp [hw]
      · simp only [Option.toList_some, Shift.tally_cons, hq, if_true, Shift.tally_nil]
        push_cast
        ring
    · rename_i hq
      split
      · simp
      · simp [Shift.tally_cons, hq]

/-- The jump has accounted for the changes applied so far. -/
def Tracks (applied : List Shift) (s : Slot) : Prop :=
  ∀ o t, s.Jumps o t → (s.instruction.operand.toNat : Int) =
    reach s.instruction.flow o t + Shift.tally (span s.instruction.flow o t) applied

theorem Tracks.shift {applied : List Shift} (ht : s.Tracks applied)
    (h : Slot.shift growing change s = .ok (s', resized)) : s'.Tracks (applied ++ [change]) := by
  intro o t hj
  have hj₀ := (follows_of_shift h).jumps_iff.1 hj
  rw [(follows_of_shift h).flow_eq, Shift.tally_append, Shift.tally_cons, Shift.tally_nil]
  have hbefore := ht o t hj₀
  rcases shift_spec h with ⟨hun, rfl, -⟩ | ⟨o', t', operand, hj', hspan, hop, rfl, -⟩
  · rw [hun o t hj₀, hbefore]
    simp
  · obtain rfl : o' = o := Option.some.inj (hj'.origin_eq.symm.trans hj₀.origin_eq)
    obtain rfl : t' = t := Option.some.inj (hj'.target_eq.symm.trans hj₀.target_eq)
    rw [hspan]
    simp only [moved, hop, hbefore, if_true]
    omega

end Slot

/-! ### All slots under one change -/

section Sweep

variable {growing : Bool} {change primary : Shift} {slots slots' : List Slot} {caused : List Shift}

theorem sweep_eq_ok_iff :
    sweep growing change slots = .ok (slots', caused) ↔
      ∃ shifted, List.Forall₂ (fun s p => s.shift growing change = .ok p) slots shifted ∧
        shifted.map Prod.fst = slots' ∧ shifted.filterMap Prod.snd = caused := by
  simp only [sweep, bind_eq_ok_iff, mapM_eq_ok_iff, pure_eq_ok_iff, Prod.mk.injEq]

theorem sweep_nil_eq_ok_iff :
    sweep growing change [] = .ok (slots', caused) ↔ slots' = [] ∧ caused = [] := by
  rw [sweep_eq_ok_iff]
  constructor
  · rintro ⟨_, ⟨⟩, rfl, rfl⟩
    exact ⟨rfl, rfl⟩
  · rintro ⟨rfl, rfl⟩
    exact ⟨[], .nil, rfl, rfl⟩

theorem sweep_cons_eq_ok_iff {s : Slot} :
    sweep growing change (s :: slots) = .ok (slots', caused) ↔
      ∃ s' resized rest caused', s.shift growing change = .ok (s', resized) ∧
        sweep growing change slots = .ok (rest, caused') ∧
        slots' = s' :: rest ∧ caused = resized.toList ++ caused' := by
  constructor
  · rw [sweep_eq_ok_iff]
    rintro ⟨_, _ | ⟨hs, hrest⟩, rfl, rfl⟩
    rename_i p shifted
    refine ⟨p.1, p.2, _, _, hs, sweep_eq_ok_iff.2 ⟨shifted, hrest, rfl, rfl⟩, rfl, ?_⟩
    cases hp : p.2 <;> simp [hp]
  · rintro ⟨s', resized, rest, caused', hs, hrest, rfl, rfl⟩
    obtain ⟨shifted, hall, rfl, rfl⟩ := sweep_eq_ok_iff.1 hrest
    refine sweep_eq_ok_iff.2 ⟨(s', resized) :: shifted, .cons hs hall, rfl, ?_⟩
    cases resized <;> simp

theorem follows_of_sweep (h : sweep growing change slots = .ok (slots', caused)) :
    List.Forall₂ Slot.Follows slots slots' := by
  obtain ⟨shifted, hall, rfl, -⟩ := sweep_eq_ok_iff.1 h
  rw [List.forall₂_map_right_iff]
  exact hall.imp fun s p hp => Slot.follows_of_shift hp

/-- The changes of width that a sweep gives rise to are the growth of the instructions. -/
theorem swell_of_sweep (q : Site) (h : sweep growing change slots = .ok (slots', caused)) :
    swell q slots' = swell q slots + Shift.tally q caused := by
  induction slots generalizing slots' caused with
  | nil =>
    obtain ⟨rfl, rfl⟩ := sweep_nil_eq_ok_iff.1 h
    rfl
  | cons s slots ih =>
    obtain ⟨s', resized, rest, caused', hs, hrest, rfl, rfl⟩ := sweep_cons_eq_ok_iff.1 h
    rw [swell_cons, swell_cons, ih hrest, Slot.growth_of_shift q hs, Shift.tally_append]
    omega

theorem exists_of_mem_sweep {s' : Slot} (h : sweep growing change slots = .ok (slots', caused))
    (hmem : s' ∈ slots') : ∃ s ∈ slots, ∃ resized, s.shift growing change = .ok (s', resized) := by
  obtain ⟨shifted, hall, rfl, -⟩ := sweep_eq_ok_iff.1 h
  obtain ⟨p, hp, rfl⟩ := List.mem_map.1 hmem
  obtain ⟨s, hs, hshift⟩ := exists_of_mem_right hall hp
  exact ⟨s, hs, p.2, hshift⟩

/-- The changes applied and pending are the edit and the growth of the instructions, and every jump
has accounted for those applied. -/
structure Balanced (primary : Shift) (applied pending : List Shift) (slots : List Slot) : Prop where
  tracks : ∀ s ∈ slots, s.Tracks applied
  balance : ∀ q, Shift.tally q (applied ++ pending) = Shift.tally q [primary] + swell q slots

theorem Balanced.sweep {applied pending : List Shift}
    (hb : Balanced primary applied (change :: pending) slots)
    (h : Tripwire.sweep growing change slots = .ok (slots', caused)) :
    Balanced primary (applied ++ [change]) (pending ++ caused) slots' where
  tracks s' hs' := by
    obtain ⟨s, hs, resized, hshift⟩ := exists_of_mem_sweep h hs'
    exact (hb.tracks s hs).shift hshift
  balance q := by
    have hbalance := hb.balance q
    rw [swell_of_sweep q h]
    simp only [Shift.tally_append, Shift.tally_cons, Shift.tally_nil] at hbalance ⊢
    omega

/-- When no change is pending, every jump has the operand that it has to have. -/
theorem Balanced.settled {applied : List Shift} (hb : Balanced primary applied [] slots) :
    Settled primary slots := by
  intro s hs o t hj
  have hbalance := hb.balance (Slot.span s.instruction.flow o t)
  rw [List.append_nil] at hbalance
  rw [hb.tracks s hs o t hj, hbalance, Slot.demand]
  omega

end Sweep

end Tripwire
