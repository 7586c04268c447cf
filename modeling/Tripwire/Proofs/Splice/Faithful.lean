import Tripwire.Proofs.Block.Width
import Tripwire.Proofs.Relocation.Adapted
import Tripwire.Proofs.Splice.Geometry

/-!
# Splices are faithful

When the operands are settled, every instruction that stays is where the changes
put it and every jump leads where its target has come. So the layout check says
nothing that relocation has not established, and the check of the targets fails
only for a jump that is left without a target, or past the 32-bit range.

* `Instruction.Resized`: what a splice may change in an instruction;
* `Block.Valid`, `Block.Addable`, `Block.Placeable`: code that may be edited, blocks that may be put
  into it;
* `Spliced`: what a splice makes of a block;
* `Block.spliced_of_relocated`: the outcome of relocation is such a block;
* `Block.checks_of_relocated`: it passes the checks.
-/

namespace Tripwire

/-- The instruction `i'` comes from `i`: only the operand and the width of a jump may differ. -/
structure Instruction.Resized (i i' : Instruction) : Prop where
  opcode_eq : i'.opcode = i.opcode
  eq_of_not_isJump : i.flow.isJump = false → i' = i

theorem Instruction.Encodable.fits_fresh {i : Instruction} (h : i.Encodable) :
    (Slot.fresh i).Fits :=
  ⟨h.fits, h.width_le⟩

namespace Instruction.Resized

variable {i i' i'' : Instruction}

theorem refl (i : Instruction) : i.Resized i := ⟨rfl, fun _ => rfl⟩

theorem flow_eq (h : i.Resized i') : i'.flow = i.flow := congrArg Opcode.flow h.opcode_eq

theorem symm (h : i.Resized i') : i'.Resized i :=
  ⟨h.opcode_eq.symm, fun hn => (h.eq_of_not_isJump (h.flow_eq ▸ hn)).symm⟩

theorem trans (h : i.Resized i') (h' : i'.Resized i'') : i.Resized i'' :=
  ⟨h'.opcode_eq.trans h.opcode_eq, fun hn => by
    rw [h'.eq_of_not_isJump (h.flow_eq ▸ hn), h.eq_of_not_isJump hn]⟩

/-- An instruction has a width from one word to the greatest one when this is so for jumps. -/
theorem bounded (h : i.Resized i') (hi : i.Encodable)
    (hjump : i'.flow.isJump = true → 1 ≤ i'.width ∧ i'.width ≤ maximalWidth) :
    1 ≤ i'.width ∧ i'.width ≤ maximalWidth := by
  by_cases hflow : i'.flow.isJump = true
  · exact hjump hflow
  · rw [h.eq_of_not_isJump (by rw [← h.flow_eq]; simpa using hflow)]
    exact ⟨hi.one_le_width, hi.width_le⟩

end Instruction.Resized

namespace Block

theorem resized_symm {b c : Block} (h : List.Forall₂ Instruction.Resized b c) :
    List.Forall₂ Instruction.Resized c b :=
  h.flip.imp fun _ _ hi => hi.symm

theorem resized_trans {b c d : Block} (h : List.Forall₂ Instruction.Resized b c)
    (h' : List.Forall₂ Instruction.Resized c d) : List.Forall₂ Instruction.Resized b d :=
  forall₂_trans (fun _ _ _ hi hi' => hi.trans hi') h h'

/-- Nothing may differ in instructions that are no jumps. -/
theorem eq_of_resized {b c : Block} (hjumps : ∀ i ∈ b, i.flow.isJump = false)
    (h : List.Forall₂ Instruction.Resized b c) : c = b := by
  induction h with
  | nil => rfl
  | cons hi _ ih =>
    rw [hi.eq_of_not_isJump (hjumps _ (List.mem_cons_self ..)),
      ih fun j hj => hjumps j (List.mem_cons_of_mem _ hj)]

/-- Code that may be edited: it can be written as it is, does not suspend, and every jump leads to
an instruction. -/
structure Valid (b : Block) : Prop where
  encodable : ∀ i ∈ b, i.Encodable
  steady : ∀ i ∈ b, i.flow ≠ .suspension
  closed : b.Closed

/-- Instructions that may be spliced in. -/
structure Addable (added : Block) : Prop where
  encodable : ∀ i ∈ added, i.Encodable
  flow_eq : ∀ i ∈ added, i.flow = .other

theorem Addable.isJump_eq {added : Block} (h : added.Addable) {i : Instruction} (hi : i ∈ added) :
    i.flow.isJump = false := by
  rw [h.flow_eq i hi]
  rfl

/-- Instructions that can stand in code as they are written, prefixes by themselves included. -/
structure Placeable (added : Block) : Prop where
  fits : ∀ i ∈ added, (Slot.fresh i).Fits
  flow_eq : ∀ i ∈ added, i.flow = .other

theorem Placeable.size_pos {added : Block} (h : added.Placeable) (hne : added ≠ []) :
    0 < added.size := by
  obtain ⟨i, rest, rfl⟩ := List.exists_cons_of_ne_nil hne
  have hwidth := (one_le_minimalWidth _).trans (h.fits i (List.mem_cons_self ..)).minimalWidth_le
  rw [size_cons, Instruction.size, wordSize]
  exact Nat.add_pos_left (Nat.mul_pos hwidth two_pos) _

theorem Addable.placeable {added : Block} (h : added.Addable) : added.Placeable :=
  ⟨fun i hi => (h.encodable i hi).fits_fresh, h.flow_eq⟩

instance (added : Block) : Decidable added.Addable :=
  decidable_of_iff ((∀ i ∈ added, i.Encodable) ∧ ∀ i ∈ added, i.flow = .other)
    ⟨fun ⟨h₁, h₂⟩ => ⟨h₁, h₂⟩, fun ⟨h₁, h₂⟩ => ⟨h₁, h₂⟩⟩

theorem solid_of_encodable {b : Block} (hb : ∀ i ∈ b, i.Encodable) : b.Solid :=
  fun i hi => (hb i hi).size_pos

theorem Valid.solid {b : Block} (hb : b.Valid) : b.Solid := solid_of_encodable hb.encodable

/-- No jump that stays leads to an instruction that is taken out, but for the first. -/
def Spares (b : Block) (k count : Nat) : Prop :=
  ∀ j m, Stays k count j → b.LeadsTo j m → m ≤ k ∨ k + count ≤ m

/-- What a splice makes of a block: the old instructions in their order with the new ones in place,
every jump leading where its target has come, at the offsets that the changes give. -/
structure Spliced (b : Block) (k count : Nat) (added c : Block) (shifts : List Shift) : Prop where
  resized : List.Forall₂ Instruction.Resized (b.spliced k count added) c
  valid : c.Valid
  leadsTo : ∀ j m, Stays k count j → b.LeadsTo j m →
    c.LeadsTo (carry k count added.length j) (carry k count added.length m)
  image_eq : ∀ m ≤ b.length, m ≤ k ∨ k + count ≤ m →
    Shift.image shifts (start b m) = start c (carry k count added.length m)
  size_eq : (c.size : Int) = b.size + Shift.total shifts

/-! ### The draft -/

section Draft

variable {b added : Block} {k count : Nat} {s : Slot}

theorem instructionsOf_slotsFrom (s : Nat) (b : Block) : instructionsOf (slotsFrom s b) = b := by
  induction b generalizing s with
  | nil => rfl
  | cons i b ih => rw [slotsFrom, instructionsOf_cons, ih]; rfl

theorem instructionsOf_splicedSlots (b : Block) (k count : Nat) (added : Block) :
    instructionsOf (b.splicedSlots k count added) = b.spliced k count added := by
  rw [splicedSlots, slots_eq_slotsFrom, slotsFrom_take, slotsFrom_drop, instructionsOf_append,
    instructionsOf_append, instructionsOf_slotsFrom, instructionsOf_slotsFrom,
    instructionsOf_fresh, spliced]

theorem mem_of_mem_spliced {i : Instruction} (hi : i ∈ b.spliced k count added) :
    i ∈ b ∨ i ∈ added := by
  rcases List.mem_append.1 hi with hi | hi
  · rcases List.mem_append.1 hi with hi | hi
    · exact .inl (List.mem_of_mem_take hi)
    · exact .inr hi
  · exact .inl (List.mem_of_mem_drop hi)

theorem instruction_mem_of_mem_splicedSlots (hs : s ∈ b.splicedSlots k count added) :
    s.instruction ∈ b ∨ s.instruction ∈ added := by
  have hmem : s.instruction ∈ b.spliced k count added := by
    rw [← instructionsOf_splicedSlots]
    exact List.mem_map_of_mem hs
  exact mem_of_mem_spliced hmem

theorem fits_of_mem_splicedSlots_of_fits (hb : ∀ i ∈ b, i.Encodable)
    (ha : ∀ i ∈ added, (Slot.fresh i).Fits) (hs : s ∈ b.splicedSlots k count added) : s.Fits := by
  rcases instruction_mem_of_mem_splicedSlots hs with hi | hi
  · exact ⟨(hb _ hi).fits, (hb _ hi).width_le⟩
  · exact ⟨(ha _ hi).minimalWidth_le, (ha _ hi).width_le⟩

theorem fits_of_mem_splicedSlots (hb : ∀ i ∈ b, i.Encodable) (ha : ∀ i ∈ added, i.Encodable)
    (hs : s ∈ b.splicedSlots k count added) : s.Fits :=
  fits_of_mem_splicedSlots_of_fits hb (fun i hi => (ha i hi).fits_fresh) hs

theorem atOrigin_ofPlaced {b : Block} {m : Nat} {i : Instruction} (hi : b[m]? = some i) :
    (Slot.ofPlaced i (start b m)).AtOrigin where
  size_eq o ho := by
    cases ho
    rfl
  operand_eq o t hj := by
    have hjump : i.flow.isJump = true := hj.isJump
    have horigin := hj.origin_eq
    have htarget := hj.target_eq
    cases horigin
    obtain ⟨hreach, -⟩ := (target?_eq_some_iff hi hjump).1 htarget
    have hnext := start_succ hi
    simp only [Slot.ofPlaced]
    cases hflow : i.flow with
    | absoluteJump =>
      rw [hflow, base, if_neg (by simp)] at hreach
      simp only [Slot.reach]
      omega
    | relativeJump =>
      rw [hflow, base, if_pos rfl] at hreach
      simp only [Slot.reach]
      omega
    | suspension => simp [hflow, Flow.isJump] at hjump
    | other => simp [hflow, Flow.isJump] at hjump

theorem atOrigin_of_mem_splicedSlots (hk : k + count ≤ b.length)
    (hs : s ∈ b.splicedSlots k count added) : s.AtOrigin := by
  obtain ⟨l, hl⟩ := List.mem_iff_getElem?.1 hs
  rcases exists_of_getElem?_splicedSlots hk hl with ⟨i, -, rfl⟩ | ⟨m, i, -, -, hi, rfl⟩
  · refine ⟨fun o ho => ?_, fun o t hj => ?_⟩
    · cases ho
    · cases hj.origin_eq
  · exact atOrigin_ofPlaced hi

/-- The old instructions of a draft fit, whatever is put in. -/
theorem fits_of_origin (hb : ∀ i ∈ b, i.Encodable) (hk : k + count ≤ b.length)
    (hs : s ∈ b.splicedSlots k count added) {o : Origin} (ho : s.origin = some o) : s.Fits := by
  obtain ⟨l, hl⟩ := List.mem_iff_getElem?.1 hs
  rcases exists_of_getElem?_splicedSlots hk hl with ⟨i, -, rfl⟩ | ⟨m, i, -, -, hi, rfl⟩
  · cases ho
  · have hencodable := hb i (List.mem_of_getElem? hi)
    exact ⟨hencodable.fits, hencodable.width_le⟩

theorem adapted_of_relocate {out : List Slot} {shifts : List Shift} (hb : ∀ i ∈ b, i.Encodable)
    (hk : k + count ≤ b.length)
    (h : relocate (b.spliceShift k count added) (b.splicedSlots k count added) = .ok (out, shifts)) :
    Adapted (b.spliceShift k count added) (b.splicedSlots k count added) out shifts :=
  .of_relocate (fun _ hs => atOrigin_of_mem_splicedSlots hk hs)
    (fun _ hs _ ho => fits_of_origin hb hk hs ho) h

theorem relocated_of_relocate {out : List Slot} {shifts : List Shift} (hb : ∀ i ∈ b, i.Encodable)
    (ha : ∀ i ∈ added, (Slot.fresh i).Fits) (hk : k + count ≤ b.length)
    (h : relocate (b.spliceShift k count added) (b.splicedSlots k count added) = .ok (out, shifts)) :
    Relocated (b.spliceShift k count added) (b.splicedSlots k count added) out shifts :=
  .of_relocate (fun _ hs => atOrigin_of_mem_splicedSlots hk hs)
    (fun _ hs => fits_of_mem_splicedSlots_of_fits hb ha hs) h

end Draft

/-! ### The outcome of relocation -/

section Outcome

variable {b added : Block} {out : List Slot} {k count : Nat} {shifts : List Shift}

theorem resized_of_follows {s s' : Slot} (h : s.Follows s') :
    s.instruction.Resized s'.instruction := by
  refine ⟨h.opcode_eq, fun hn => ?_⟩
  have heq : s' = s := h.eq_of_not_jumps fun o t hj => by
    rw [hj.isJump] at hn
    cases hn
  rw [heq]

/-- The instructions of a relocated draft are those of the spliced block with other widths. -/
theorem resized_instructionsOf
    (h : List.Forall₂ Slot.Follows (b.splicedSlots k count added) out) :
    List.Forall₂ Instruction.Resized (b.spliced k count added) (instructionsOf out) := by
  rw [← instructionsOf_splicedSlots]
  exact forall₂_instructionsOf h fun _ _ hs => resized_of_follows hs

theorem solid_of_fits (h : ∀ s ∈ out, s.Fits) : Solid (instructionsOf out) := fun i hi => by
  obtain ⟨s, hs, rfl⟩ := List.mem_map.1 hi
  have hpos := (one_le_minimalWidth _).trans (h s hs).minimalWidth_le
  simp only [Instruction.size, wordSize]
  omega

/-- What relocation makes is written in as many bytes as its widths say. -/
theorem length_encode_of_relocated {primary : Shift} {slots : List Slot}
    (h : Relocated primary slots out shifts) :
    (encode (instructionsOf out)).length = size (instructionsOf out) := by
  refine length_encode_of_fits fun i hi => ?_
  obtain ⟨s, hs, rfl⟩ := List.mem_map.1 hi
  exact (h.fits s hs).minimalWidth_le

/-- While the code grows no instruction gets narrower. -/
theorem within_of_growing {slots : List Slot} (h : List.Forall₂ (Slot.Leans true) slots out) :
    Within (instructionsOf out) (instructionsOf slots) := by
  refine (forall₂_instructionsOf h fun s s' hs => ?_).flip
  have htoward := hs.toward
  rw [toward_true] at htoward
  exact Int.ofNat_le.1 htoward

/-- While the code shrinks no instruction gets wider. -/
theorem within_of_shrinking {slots : List Slot} (h : List.Forall₂ (Slot.Leans false) slots out) :
    Within (instructionsOf slots) (instructionsOf out) := by
  refine forall₂_instructionsOf h fun s s' hs => ?_
  have htoward := hs.toward
  rw [toward_false] at htoward
  exact Int.ofNat_le.1 htoward

theorem length_instructionsOf_of_follows (hk : k + count ≤ b.length)
    (h : List.Forall₂ Slot.Follows (b.splicedSlots k count added) out) :
    (instructionsOf out).length = b.length - count + added.length := by
  have hlen := h.length_eq
  rw [← length_instructionsOf, instructionsOf_splicedSlots, spliced] at hlen
  simp only [List.length_append, List.length_take, List.length_drop] at hlen
  rw [length_instructionsOf]
  omega

theorem encodable_of_follows (hb : ∀ i ∈ b, i.Encodable) (ha : ∀ i ∈ added, i.Encodable)
    (hfollows : List.Forall₂ Slot.Follows (b.splicedSlots k count added) out)
    (hfits : ∀ s ∈ out, s.Fits) : ∀ i ∈ instructionsOf out, i.Encodable := by
  intro i hi
  obtain ⟨s', hs', rfl⟩ := List.mem_map.1 hi
  obtain ⟨s, hs, hfollow⟩ := exists_of_mem_right hfollows hs'
  refine ⟨?_, (hfits s' hs').minimalWidth_le, (hfits s' hs').width_le⟩
  rw [hfollow.opcode_eq]
  rcases instruction_mem_of_mem_splicedSlots hs with hmem | hmem
  · exact (hb _ hmem).ne_extendedArg
  · exact (ha _ hmem).ne_extendedArg

/-- A settled jump leads to where its target has come. -/
theorem landing_eq (hb : b.Solid) (hk : k + count ≤ b.length)
    (hfollows : List.Forall₂ Slot.Follows (b.splicedSlots k count added) out)
    (hsettled : Settled (b.spliceShift k count added) out) {j m : Nat} {i : Instruction}
    (hi : b[j]? = some i) (hjm : b.LeadsTo j m) (hj : Stays k count j)
    (hm : m ≤ k ∨ k + count ≤ m) :
    ∃ i', (instructionsOf out)[carry k count added.length j]? = some i' ∧ i'.flow = i.flow ∧
      base (instructionsOf out) i'.flow (carry k count added.length j) + i'.operand.toNat =
        start (instructionsOf out) (carry k count added.length m) := by
  have hslot : (b.splicedSlots k count added)[carry k count added.length j]? =
      some (Slot.ofPlaced i (start b j)) := by
    rw [getElem?_splicedSlots_carry hk hj, getElem?_slots, hi]
    rfl
  obtain ⟨s', hs', hs⟩ := exists_getElem?_right hfollows hslot
  have hdemand := demand_eq hb hk hfollows hi hjm hj hm
  obtain ⟨hjump, htarget⟩ := hjm.target?_eq hi
  have hjumps : s'.Jumps ⟨start b j, i.size, i.target? (start b j)⟩ (start b m) :=
    hs.jumps_iff.2 ⟨hjump, rfl, htarget⟩
  have hoperand := hsettled s' (List.mem_of_getElem? hs') _ _ hjumps
  have hflow : s'.instruction.flow = i.flow := hs.flow_eq
  rw [hflow, hdemand] at hoperand
  refine ⟨s'.instruction, ?_, hflow, ?_⟩
  · rw [instructionsOf, List.getElem?_map, hs']
    rfl
  · rw [hflow]
    omega

/-- Where the changes of a relocation put the instructions. -/
theorem image_of_adapted (hb : b.Solid) (hk : k + count ≤ b.length)
    (h : Adapted (b.spliceShift k count added) (b.splicedSlots k count added) out shifts)
    {m : Nat} (hm : m ≤ b.length) (hkm : m ≤ k ∨ k + count ≤ m) :
    Shift.image shifts (start b m) =
      start (instructionsOf out) (carry k count added.length m) := by
  rw [Shift.image_eq_add_tally, h.tally_eq, start_carry hb hk h.follows hm hkm]
  omega

theorem image_of_relocated (hb : b.Solid) (hk : k + count ≤ b.length)
    (h : Relocated (b.spliceShift k count added) (b.splicedSlots k count added) out shifts)
    {m : Nat} (hm : m ≤ b.length) (hkm : m ≤ k ∨ k + count ≤ m) :
    Shift.image shifts (start b m) =
      start (instructionsOf out) (carry k count added.length m) :=
  image_of_adapted hb hk h.adapted hm hkm

/-- All growth lies in front of a position behind the code. -/
theorem swell_of_size_le (hb : b.Solid) (hk : k + count ≤ b.length)
    (h : List.Forall₂ Slot.Follows (b.splicedSlots k count added) out) {p : Nat} (hp : b.size ≤ p) :
    swell (Shift.ahead p) out = swell (fun _ _ => true) out := by
  refine swell_congr fun s hs o ho => ?_
  obtain ⟨s₀, hs₀, hs⟩ := exists_of_mem_right h hs
  obtain ⟨l, hl⟩ := List.mem_iff_getElem?.1 hs₀
  have horigin := hs.origin_eq
  rw [ho] at horigin
  rcases exists_of_getElem?_splicedSlots hk hl with ⟨_, -, rfl⟩ | ⟨m, i, -, -, hi, rfl⟩
  · cases horigin
  · cases horigin
    obtain ⟨hlt, -⟩ := List.getElem?_eq_some_iff.1 hi
    have hstart : start b m < start b b.length := (start_lt_start_iff hb le_rfl).2 hlt
    rw [start_length] at hstart
    exact decide_eq_true (hstart.trans_le hp)

theorem size_of_adapted (hb : b.Solid) (hk : k + count ≤ b.length)
    (h : Adapted (b.spliceShift k count added) (b.splicedSlots k count added) out shifts) :
    (size (instructionsOf out) : Int) = b.size + Shift.total shifts := by
  have hend := start_carry hb hk h.follows le_rfl (.inr hk)
  have hmono := start_mono b hk
  have htotal : Shift.total shifts = Shift.tally (fun _ _ => true) shifts := by
    simp [Shift.tally]
  rw [tally_spliceShift_of_le hmono, carry_of_le _ hk, start_length,
    start_of_length_le (length_instructionsOf_of_follows hk h.follows).le,
    swell_of_size_le hb hk h.follows le_rfl] at hend
  rw [htotal, h.tally_eq, hend, Shift.tally_singleton, if_pos rfl]
  omega

theorem size_of_relocated (hb : b.Solid) (hk : k + count ≤ b.length)
    (h : Relocated (b.spliceShift k count added) (b.splicedSlots k count added) out shifts) :
    (size (instructionsOf out) : Int) = b.size + Shift.total shifts :=
  size_of_adapted hb hk h.adapted

/-- Once the targets have been checked, the jumps that stay lead where their targets have come. -/
theorem leadsTo_of_relocated (hb : b.Solid) (hk : k + count ≤ b.length) (hspares : b.Spares k count)
    (h : Relocated (b.spliceShift k count added) (b.splicedSlots k count added) out shifts)
    (hclosed : Closed (instructionsOf out)) {j m : Nat} (hj : Stays k count j)
    (hjm : b.LeadsTo j m) :
    (instructionsOf out).LeadsTo (carry k count added.length j) (carry k count added.length m) := by
  have hfollows := h.leans.imp fun _ _ hleans => hleans.follows
  have hm := hspares j m hj hjm
  obtain ⟨i, hi, hjump, -⟩ := hjm.2
  obtain ⟨i', hi', hflow, hlanding⟩ := landing_eq hb hk hfollows h.settled hi hjm hj hm
  -- The check of the targets gives the jump a target; it can only be the one that it lands at.
  obtain ⟨m', hleads⟩ := hclosed _ i' hi' (by rw [hflow, hjump])
  obtain ⟨hjump', htarget⟩ := hleads.target?_eq hi'
  obtain ⟨hgoal, -⟩ := (target?_eq_some_iff hi' hjump').1 htarget
  have hlen := length_instructionsOf_of_follows hk hfollows
  have hcarry : carry k count added.length m = m' := by
    refine start_inj (solid_of_fits h.fits) ?_ hleads.1.le (hlanding.symm.trans hgoal)
    have hmlen := hjm.1
    unfold carry
    split <;> omega
  rw [hcarry]
  exact hleads

/-- The outcome of relocation is what a splice has to make of a block, once the targets have been
checked. -/
theorem spliced_of_relocated (hb : b.Valid) (ha : added.Addable) (hk : k + count ≤ b.length)
    (hspares : b.Spares k count)
    (h : Relocated (b.spliceShift k count added) (b.splicedSlots k count added) out shifts)
    (hclosed : Closed (instructionsOf out)) :
    Spliced b k count added (instructionsOf out) shifts := by
  have hfollows := h.leans.imp fun _ _ hleans => hleans.follows
  have hencodable := encodable_of_follows hb.encodable ha.encodable hfollows h.fits
  have hresized := resized_instructionsOf hfollows
  refine ⟨hresized, ⟨hencodable, ?_, hclosed⟩, ?_, ?_, size_of_relocated hb.solid hk h⟩
  · intro i' hi'
    obtain ⟨i, hi, hii'⟩ := exists_of_mem_right hresized hi'
    rw [hii'.flow_eq]
    rcases mem_of_mem_spliced hi with hi | hi
    · exact hb.steady i hi
    · simp [ha.flow_eq i hi]
  · exact fun j m hj hjm => leadsTo_of_relocated hb.solid hk hspares h hclosed hj hjm
  · exact fun m hm hkm => image_of_relocated hb.solid hk h hm hkm

/-! ### The checks -/

theorem checkSlot_eq_ok_iff {s : Slot} {offset : Nat} :
    checkSlot shifts s offset = .ok () ↔
      ∀ o, s.origin = some o → (offset : Int) = Shift.image shifts o.offset ∧
        ∀ t, o.target = some t →
          (s.instruction.target? offset).map Int.ofNat = some (Shift.image shifts t) := by
  unfold checkSlot
  cases ho : s.origin with
  | none => simp
  | some o =>
    simp only [Option.some.injEq, forall_eq']
    split
    · rename_i hoffset
      cases ht : o.target with
      | none => simp [hoffset]
      | some t =>
        simp only [Option.some.injEq, forall_eq']
        split
        · rename_i htarget
          simp [hoffset, htarget]
        · rename_i htarget
          simp [htarget]
    · rename_i hoffset
      simp [hoffset]

theorem checkLayout_eq_ok_iff :
    checkLayout shifts out = .ok () ↔
      ∀ l s, out[l]? = some s → checkSlot shifts s (start (instructionsOf out) l) = .ok () := by
  rw [checkLayout, forM_eq_ok_iff]
  have hget : ∀ l, (out.zip (offsets (out.map Slot.instruction)))[l]? =
      out[l]?.map fun s => (s, start (instructionsOf out) l) := by
    intro l
    have hlen : (instructionsOf out).length = out.length := length_instructionsOf out
    rw [List.zip, List.getElem?_zipWith, offsets, getElem?_offsetsFrom, Nat.zero_add]
    by_cases hl : l < out.length
    · rw [if_pos (by rw [List.length_map]; exact hl), List.getElem?_eq_getElem hl]
      rfl
    · rw [List.getElem?_eq_none (Nat.le_of_not_lt hl)]
      rfl
  constructor
  · intro h l s hs
    exact h (s, start (instructionsOf out) l)
      (List.mem_of_getElem? (by rw [hget, hs]; rfl : _ = some _))
  · rintro h ⟨s, offset⟩ hmem
    obtain ⟨l, hl⟩ := List.mem_iff_getElem?.1 hmem
    rw [hget, Option.map_eq_some_iff] at hl
    obtain ⟨s', hs', heq⟩ := hl
    cases heq
    exact h l s hs'

/-- Relocation that leaves every jump a target below the 32-bit limit passes the checks. -/
theorem checks_of_relocated (hb : b.Valid) (ha : added.Placeable) (hk : k + count ≤ b.length)
    (hspares : b.Spares k count)
    (h : Relocated (b.spliceShift k count added) (b.splicedSlots k count added) out shifts)
    (hsize : size (instructionsOf out) < limit32)
    (hleft : ∀ j m, Stays k count j → b.LeadsTo j m →
      carry k count added.length m < (instructionsOf out).length) :
    checkLayout shifts out = .ok () ∧ Closed (instructionsOf out) := by
  have hfollows := h.leans.imp fun _ _ hleans => hleans.follows
  -- Every jump that stays still has a target, where the one it had has come.
  have hroute : ∀ j i, Stays k count j → b[j]? = some i → i.flow.isJump = true → ∃ m i',
      b.LeadsTo j m ∧ (instructionsOf out)[carry k count added.length j]? = some i' ∧
      i'.flow = i.flow ∧ i'.target? (start (instructionsOf out) (carry k count added.length j)) =
        some (start (instructionsOf out) (carry k count added.length m)) := by
    intro j i hj hi hjump
    obtain ⟨m, hjm⟩ := hb.closed j i hi hjump
    obtain ⟨i', hi', hflow, hlanding⟩ :=
      landing_eq hb.solid hk hfollows h.settled hi hjm hj (hspares j m hj hjm)
    refine ⟨m, i', hjm, hi', hflow, (target?_eq_some_iff hi' (hflow ▸ hjump)).2 ⟨hlanding, ?_⟩⟩
    exact (start_le_size _ _).trans_lt hsize
  constructor
  · rw [checkLayout_eq_ok_iff]
    intro l s' hs'
    obtain ⟨s, hs, hfollow⟩ := exists_getElem?_left hfollows hs'
    rw [checkSlot_eq_ok_iff]
    intro o ho
    have horigin := hfollow.origin_eq
    rw [ho] at horigin
    rcases exists_of_getElem?_splicedSlots hk hs with ⟨_, -, rfl⟩ | ⟨m, i, hm, rfl, hi, rfl⟩
    · cases horigin
    · cases horigin
      obtain ⟨hlt, -⟩ := List.getElem?_eq_some_iff.1 hi
      refine ⟨(image_of_relocated hb.solid hk h hlt.le (hm.imp_left le_of_lt)).symm, ?_⟩
      intro t ht
      have hjump : i.flow.isJump = true := isJump_of_target? ht
      obtain ⟨m', i', hjm, hi', -, htarget⟩ := hroute m i hm hi hjump
      have hslot' : s'.instruction = i' := by
        rw [instructionsOf, List.getElem?_map, hs'] at hi'
        exact Option.some.inj hi'
      have hold := (hjm.target?_eq hi).2
      obtain rfl : start b m' = t := Option.some.inj (hold.symm.trans ht)
      rw [hslot', htarget, image_of_relocated hb.solid hk h hjm.1.le (hspares m m' hm hjm)]
      rfl
  · intro l i' hi' hjump
    rw [instructionsOf, List.getElem?_map, Option.map_eq_some_iff] at hi'
    obtain ⟨s', hs', rfl⟩ := hi'
    obtain ⟨s, hs, hfollow⟩ := exists_getElem?_left hfollows hs'
    rcases exists_of_getElem?_splicedSlots hk hs with ⟨i, hi, rfl⟩ | ⟨m, i, hm, rfl, hi, rfl⟩
    · have hother := ha.flow_eq i hi
      rw [hfollow.flow_eq] at hjump
      simp [Slot.fresh, hother, Flow.isJump] at hjump
    · have hflow : s'.instruction.flow = i.flow := hfollow.flow_eq
      obtain ⟨m', i', hjm, hi', -, htarget⟩ := hroute m i hm hi (hflow ▸ hjump)
      have hslot' : s'.instruction = i' := by
        rw [instructionsOf, List.getElem?_map, hs'] at hi'
        exact Option.some.inj hi'
      refine ⟨_, hleft m m' hm hjm, s'.instruction, ?_, hjump, ?_⟩
      · rw [hslot', hi']
      · rw [hslot', htarget]

end Outcome

/-! ### The edit -/

theorem finish_eq_ok_iff {d : Draft} {e : Edit} :
    d.finish = .ok e ↔ ∃ out, relocate d.primary d.slots = .ok (out, e.shifts) ∧
      checkLayout e.shifts out = .ok () ∧ Closed (instructionsOf out) ∧
      e.code = encode (instructionsOf out) ∧ e.removed = d.removed := by
  simp only [Draft.finish, Draft.relocated, bind_eq_ok_iff, pure_eq_ok_iff, Prod.exists]
  constructor
  · rintro ⟨out, shifts, hrelocate, ⟨⟩, hlayout, ⟨⟩, htargets, rfl⟩
    exact ⟨out, hrelocate, hlayout, checkTargets_eq_ok_iff.1 htargets, rfl, rfl⟩
  · rintro ⟨out, hrelocate, hlayout, hclosed, hcode, hremoved⟩
    refine ⟨out, e.shifts, hrelocate, (), hlayout, (), checkTargets_eq_ok_iff.2 hclosed, ?_⟩
    cases e
    simp only at hcode hremoved
    rw [hcode, hremoved]
    rfl

theorem ofCode_eq_ok_iff {code : List UInt8} {b : Block} :
    ofCode code = .ok b ↔ decode code = .ok b ∧ ∀ i ∈ b, i.flow ≠ .suspension := by
  unfold ofCode
  cases hdecode : decode code with
  | error cause => simp
  | ok b' =>
    have hfind : (placed b').find? (fun p => p.1.flow = .suspension) = none ↔
        ∀ i ∈ b', i.flow ≠ .suspension := by
      rw [List.find?_eq_none]
      constructor
      · intro h i hi
        obtain ⟨m, hm⟩ := List.mem_iff_getElem?.1 hi
        simpa using h (i, start b' m) (mem_placed.2 ⟨m, hm, rfl⟩)
      · rintro h ⟨i, offset⟩ hmem
        obtain ⟨m, hm, -⟩ := mem_placed.1 hmem
        simpa using h i (List.mem_of_getElem? hm)
    simp only [Except.ok.injEq]
    split
    · rename_i i offset hsome
      constructor
      · intro h
        cases h
      · rintro ⟨rfl, hsteady⟩
        cases hsome.symm.trans (hfind.2 hsteady)
    · rename_i hnone
      simp only [Except.ok.injEq]
      exact ⟨fun h => ⟨h, h ▸ hfind.1 hnone⟩, And.left⟩

end Block

end Tripwire
