import Tripwire.Proofs.Splice.Faithful

/-!
# Layouts of a spliced block

There may be several choices of widths with which all jumps of a spliced block
lead where they have to. Relocation finds the one that is nearest in its
direction: it does not pass any other.

* `Block.tight_of_relocate`: relocation keeps jumps tight;
* `refitted`: slots with other instructions;
* `Block.Before`: widths in the direction of relocation;
* `Block.Laid`: a layout of a splice, in the direction of relocation;
* `Block.Laid.limit`: it is a limit of relocation;
* `Block.Laid.toward_of_relocate`: relocation does not pass it.
-/

namespace Tripwire

/-- The slots with the instructions of `c`. -/
def refitted (slots : List Slot) (c : Block) : List Slot :=
  List.zipWith (fun s i => ⟨i, s.origin⟩) slots c

section Refitted

variable {slots : List Slot} {w : Block}

theorem getElem?_refitted_eq_some_iff {l : Nat} {s' : Slot} :
    (refitted slots w)[l]? = some s' ↔
      ∃ s i, slots[l]? = some s ∧ w[l]? = some i ∧ s' = ⟨i, s.origin⟩ := by
  rw [refitted, List.getElem?_zipWith_eq_some]
  simp only [eq_comm]

theorem instructionsOf_refitted (h : slots.length = w.length) :
    instructionsOf (refitted slots w) = w := by
  induction slots generalizing w with
  | nil =>
    cases w with
    | nil => rfl
    | cons i w => simp at h
  | cons s slots ih =>
    cases w with
    | nil => simp at h
    | cons i w =>
      have htail : instructionsOf (refitted slots w) = w := ih (by simpa using h)
      show i :: instructionsOf (refitted slots w) = i :: w
      rw [htail]

/-- A relation between slots and their refitted slots, from one between the instructions. -/
theorem forall₂_refitted {R : Slot → Slot → Prop} {P : Instruction → Instruction → Prop}
    (h : List.Forall₂ P (instructionsOf slots) w)
    (hR : ∀ s ∈ slots, ∀ i, P s.instruction i → R s ⟨i, s.origin⟩) :
    List.Forall₂ R slots (refitted slots w) := by
  induction slots generalizing w with
  | nil =>
    cases h
    exact .nil
  | cons s slots ih =>
    cases h with
    | cons hs hrest =>
      exact .cons (hR s (List.mem_cons_self ..) _ hs)
        (ih hrest fun t ht => hR t (List.mem_cons_of_mem _ ht))

end Refitted

namespace Block

variable {growing : Bool} {b added c : Block} {out : List Slot} {k count : Nat} {s : Slot}
  {shifts : List Shift}

/-- A jump among the slots is one of the old block and has a target. -/
theorem exists_jumps_of_isJump (hb : b.Valid) (ha : added.Placeable) (hk : k + count ≤ b.length)
    (hs : s ∈ b.splicedSlots k count added) (hjump : s.instruction.flow.isJump = true) :
    ∃ o t, s.Jumps o t := by
  obtain ⟨l, hl⟩ := List.mem_iff_getElem?.1 hs
  rcases exists_of_getElem?_splicedSlots hk hl with ⟨i, hi, rfl⟩ | ⟨j, i, -, -, hi, rfl⟩
  · have hflow : i.flow = .other := ha.flow_eq i hi
    have hfresh : (Slot.fresh i).instruction.flow = .other := hflow
    simp [hfresh, Flow.isJump] at hjump
  · obtain ⟨m, hjm⟩ := hb.closed j i hi hjump
    obtain ⟨hjump', htarget⟩ := hjm.target?_eq hi
    exact ⟨_, _, hjump', rfl, htarget⟩

/-- Relocation keeps jumps tight. -/
theorem tight_of_relocate (hb : b.Valid) (ha : added.Addable) (hk : k + count ≤ b.length)
    (ht : b.Tight)
    (h : relocate (b.spliceShift k count added) (b.splicedSlots k count added) =
      .ok (out, shifts)) : Tight (instructionsOf out) := by
  have horigin : ∀ s ∈ b.splicedSlots k count added, s.AtOrigin := fun s hs =>
    atOrigin_of_mem_splicedSlots hk hs
  have hfits : ∀ s ∈ b.splicedSlots k count added, s.Fits := fun s hs =>
    fits_of_mem_splicedSlots hb.encodable ha.encodable hs
  have htight : ∀ s ∈ b.splicedSlots k count added, s.Tight := by
    intro s hs o t hj
    rcases instruction_mem_of_mem_splicedSlots hs with hi | hi
    · exact ht _ hi hj.isJump
    · have hflow := ha.flow_eq _ hi
      have hjump := hj.isJump
      simp [hflow, Flow.isJump] at hjump
  have hout := Tripwire.tight_of_relocate horigin hfits htight h
  intro i hi hjump
  obtain ⟨s', hs', rfl⟩ := List.mem_map.1 hi
  obtain ⟨s, hs, hfollows⟩ := exists_of_mem_right
    ((Relocated.of_relocate horigin hfits h).leans.imp fun _ _ hleans => hleans.follows) hs'
  rw [hfollows.flow_eq] at hjump
  obtain ⟨o, t, hj⟩ := exists_jumps_of_isJump hb ha.placeable hk hs hjump
  exact hout s' hs' o t (hfollows.jumps_iff.2 hj)

/-- The widths of `c` lie in the direction of relocation from those of `b`. -/
def Before (growing : Bool) (b c : Block) : Prop :=
  List.Forall₂ (fun i i' : Instruction => Toward growing i.width i'.width) b c

section Before

theorem before_true : Before true b c ↔ Within c b := by
  constructor
  · intro h
    exact h.flip.imp fun i i' hi => Int.ofNat_le.1 (toward_true.1 hi)
  · intro h
    exact h.flip.imp fun i i' hi => toward_true.2 (Int.ofNat_le.2 hi)

theorem before_false : Before false b c ↔ Within b c := by
  constructor
  · intro h
    exact h.imp fun i i' hi => Int.ofNat_le.1 (toward_false.1 hi)
  · intro h
    exact h.imp fun i i' hi => toward_false.2 (Int.ofNat_le.2 hi)

theorem Before.trans {d : Block} (h : Before growing b c) (h' : Before growing c d) :
    Before growing b d := by
  refine forall₂_trans (fun i i' i'' hbc hcd => ?_) h h'
  exact Toward.trans hbc hcd

/-- Blocks that both lie before the other one have the same widths. -/
theorem Before.width_eq (h : Before growing b c) (h' : Before growing c b) :
    List.Forall₂ (fun i i' : Instruction => i'.width = i.width) b c :=
  (forall₂_both h h'.flip).imp fun _ _ hi => Int.ofNat_inj.1 (Toward.antisymm hi.2 hi.1)

theorem before_of_width_eq
    (h : List.Forall₂ (fun i i' : Instruction => i'.width = i.width) b c) :
    Before growing b c :=
  h.imp fun _ _ hi => hi ▸ .refl growing _

end Before

/-- The code `c` is `b` with `added` in place of `count` instructions from the index `k` on. Its
jumps lead where their targets have come. Its widths lie in the direction of relocation, and the
operands do not drive them further in that direction. -/
structure Laid (growing : Bool) (b : Block) (k count : Nat) (added c : Block) : Prop where
  resized : List.Forall₂ Instruction.Resized (b.spliced k count added) c
  toward : Before growing (b.spliced k count added) c
  leadsTo : ∀ j m, Stays k count j → b.LeadsTo j m →
    c.LeadsTo (carry k count added.length j) (carry k count added.length m)
  stops : ∀ i ∈ c, i.flow.isJump = true → Toward growing (minimalWidth i.operand) i.width
  bounded : ∀ i ∈ c, 1 ≤ i.width ∧ i.width ≤ maximalWidth

namespace Laid

theorem solid (h : Laid growing b k count added c) : c.Solid := fun i hi =>
  Nat.mul_pos (h.bounded i hi).1 (by decide)

/-- A layout of the splice is a limit of relocation. -/
theorem limit (hb : b.Valid) (ha : added.Placeable) (hk : k + count ≤ b.length)
    (hspares : b.Spares k count) (h : Laid growing b k count added c) :
    Limit growing (b.spliceShift k count added) (b.splicedSlots k count added)
      (refitted (b.splicedSlots k count added) c) := by
  have hresized := h.resized
  have htoward := h.toward
  rw [← instructionsOf_splicedSlots] at hresized htoward
  have hlen : (b.splicedSlots k count added).length = c.length := by
    rw [← length_instructionsOf, hresized.length_eq]
  have hleans : List.Forall₂ (Slot.Leans growing) (b.splicedSlots k count added)
      (refitted (b.splicedSlots k count added) c) := by
    refine forall₂_refitted (forall₂_both hresized htoward) fun s hs i hi =>
      ⟨⟨rfl, hi.1.opcode_eq, fun hn => ?_⟩, hi.2⟩
    have hstill : s.instruction.flow.isJump = false := by
      by_contra hjump
      obtain ⟨o, t, hj⟩ := exists_jumps_of_isJump hb ha hk hs (by simpa using hjump)
      exact hn o t hj
    rw [hi.1.eq_of_not_isJump hstill]
  have hfollows := hleans.imp fun _ _ h => h.follows
  refine ⟨hleans, ?_, ?_⟩
  · intro s' hs' o t hj'
    obtain ⟨l, hl⟩ := List.mem_iff_getElem?.1 hs'
    obtain ⟨s, i', hs, hi', rfl⟩ := getElem?_refitted_eq_some_iff.1 hl
    rcases exists_of_getElem?_splicedSlots hk hs with ⟨i, -, rfl⟩ | ⟨j, i, hjstay, rfl, hi, rfl⟩
    · cases hj'.origin_eq
    · have hjump' : i'.flow.isJump = true := hj'.isJump
      have htarget := hj'.target_eq
      cases hj'.origin_eq
      have hjump : i.flow.isJump = true := isJump_of_target? htarget
      obtain ⟨m, hjm⟩ := hb.closed j i hi hjump
      obtain ⟨hm, i₀, hi₀, -, hgoal⟩ := id hjm
      rw [hi] at hi₀
      cases hi₀
      obtain rfl : start b m = t := Option.some.inj (hgoal.symm.trans htarget)
      obtain ⟨-, i₁, hi₁, -, hland⟩ := h.leadsTo j m hjstay hjm
      rw [hi'] at hi₁
      cases hi₁
      obtain ⟨hreach, -⟩ := (target?_eq_some_iff hi' hjump').1 hland
      obtain ⟨s₀, hs₀, hfollow⟩ := exists_getElem?_left hfollows hl
      rw [hs] at hs₀
      cases hs₀
      have hflow : i'.flow = i.flow := hfollow.flow_eq
      have hdemand := demand_eq hb.solid hk hfollows hi hjm hjstay (hspares j m hjstay hjm)
      rw [instructionsOf_refitted hlen] at hdemand
      show (i'.operand.toNat : Int) = Slot.demand _ _ i'.flow _ _
      rw [hflow, hdemand, ← hflow]
      omega
  · intro s' hs' o t hj'
    obtain ⟨l, hl⟩ := List.mem_iff_getElem?.1 hs'
    obtain ⟨s, i', -, hi', rfl⟩ := getElem?_refitted_eq_some_iff.1 hl
    exact h.stops i' (List.mem_of_getElem? hi') hj'.isJump

/-- Relocation does not pass a layout of the splice. -/
theorem toward_of_relocate (hb : b.Valid) (ha : added.Placeable) (hk : k + count ≤ b.length)
    (hspares : b.Spares k count)
    (hgrowing : decide (0 < (b.spliceShift k count added).delta) = growing)
    (h : Laid growing b k count added c)
    (hrelocate : relocate (b.spliceShift k count added) (b.splicedSlots k count added) =
      .ok (out, shifts)) : Before growing (instructionsOf out) c := by
  subst hgrowing
  have hlen : (b.splicedSlots k count added).length = c.length := by
    rw [← length_instructionsOf, instructionsOf_splicedSlots, h.resized.length_eq]
  have hleans := leans_of_relocate (fun s hs => atOrigin_of_mem_splicedSlots hk hs)
    (fun s hs => fits_of_mem_splicedSlots_of_fits hb.encodable ha.fits hs)
    (h.limit hb ha hk hspares) hrelocate
  have hwidths : List.Forall₂ (fun i i' : Instruction =>
      Toward (decide (0 < (b.spliceShift k count added).delta)) i.width i'.width)
      (instructionsOf out) (instructionsOf (refitted (b.splicedSlots k count added) c)) :=
    forall₂_instructionsOf hleans fun _ _ hs => hs.toward
  rwa [instructionsOf_refitted hlen] at hwidths

end Laid

end Block

end Tripwire
