import Tripwire.Proofs.Splice.Insertion
import Tripwire.Proofs.Splice.Removal

/-!
# Where jumps lead before an edit

The checks of an edit look at the new code. They know the old targets as positions
that the changes have moved, and a position inside an instruction moves with the end
of that instruction. So while code grows it stays inside, and the edit is refused.
But a jump that is narrowed can end up short of it, and then the position may come to
the start of an instruction by chance.

* `Block.image_inside`, `Block.image_of_size_le`: where the changes put the other positions;
* `Block.NarrowedPast`, `Block.Overshoots`: a jump into one that is narrowed past the target;
* `Block.Aimed`: all jumps lead to instructions, but for these;
* `Block.narrowedPast_of_image`: the positions inside instructions that come to the start of one;
* `Block.aims_of_checks`, `Block.limit_le_of_no_target`: what jumps that pass the checks have led to;
* `aimed_of_edit`: where the jumps of edited code have led.
-/

namespace Tripwire

namespace Block

variable {b added : Block} {out : List Slot} {k count : Nat} {shifts : List Shift}

/-! ### Where the changes put positions -/

section Positions

variable (hb : b.Solid) (hk : k + count ≤ b.length)
  (h : Adapted (b.spliceShift k count added) (b.splicedSlots k count added) out shifts)
include hb hk h

/-- A position inside an instruction keeps its distance to the end of it. -/
theorem image_inside {l p : Nat} (hl : l < b.length) (hstays : Stays k count l)
    (hp : start b l < p) (hp' : p < start b (l + 1)) :
    Shift.image shifts p + (start b (l + 1) - p) =
      start (instructionsOf out) (carry k count added.length l + 1) := by
  rw [Shift.image_eq_add_tally, h.tally_eq, end_carry_inside hb hk h.follows hl hstays hp hp']
  omega

/-- A position behind the code keeps its distance to the end of it. -/
theorem image_of_size_le {p : Nat} (hp : b.size ≤ p) :
    Shift.image shifts p = size (instructionsOf out) + (p - b.size) := by
  have hend := image_of_adapted hb hk h le_rfl (.inr hk)
  have hstart : start b (k + count) ≤ b.size := start_le_size b _
  rw [start_length, carry_of_le _ hk,
    start_of_length_le (length_instructionsOf_of_follows hk h.follows).le,
    Shift.image_eq_add_tally, h.tally_eq, tally_spliceShift_of_le hstart,
    swell_of_size_le hb hk h.follows le_rfl] at hend
  rw [Shift.image_eq_add_tally, h.tally_eq, tally_spliceShift_of_le (hstart.trans hp),
    swell_of_size_le hb hk h.follows hp]
  omega

end Positions

/-! ### What the checks say about targets -/

/-- An instruction that stays is found again, resized in the direction of relocation. -/
theorem exists_kept (hk : k + count ≤ b.length)
    (h : Adapted (b.spliceShift k count added) (b.splicedSlots k count added) out shifts)
    {l : Nat} {i : Instruction} (hl : Stays k count l) (hi : b[l]? = some i) :
    ∃ s, out[carry k count added.length l]? = some s ∧
      (instructionsOf out)[carry k count added.length l]? = some s.instruction ∧
      (Slot.ofPlaced i (start b l)).Leans (decide (0 < (b.spliceShift k count added).delta)) s ∧
      0 < s.instruction.size := by
  have hslot : (b.splicedSlots k count added)[carry k count added.length l]? =
      some (Slot.ofPlaced i (start b l)) := by
    rw [getElem?_splicedSlots_carry hk hl, getElem?_slots, hi]
    rfl
  obtain ⟨s, hs, hleans⟩ := exists_getElem?_right h.leans hslot
  have hfits := h.fits s (List.mem_of_getElem? hs) _ hleans.follows.origin_eq
  refine ⟨s, hs, by rw [instructionsOf, List.getElem?_map, hs]; rfl, hleans, ?_⟩
  exact Nat.mul_pos ((one_le_minimalWidth _).trans hfits.minimalWidth_le) two_pos

/-- Code that ends with an old instruction is longer than any offset in it. -/
theorem start_lt_size_of_adapted (hk : k + count ≤ b.length)
    (hlast : k + count = b.length → added = [])
    (h : Adapted (b.spliceShift k count added) (b.splicedSlots k count added) out shifts) {m : Nat}
    (hm : m < (instructionsOf out).length) :
    start (instructionsOf out) m < size (instructionsOf out) := by
  have hlen := length_instructionsOf_of_follows hk h.follows
  obtain ⟨l, hl, hstays, hcarry⟩ : ∃ l < b.length, Stays k count l ∧
      carry k count added.length l + 1 = (instructionsOf out).length := by
    by_cases hend : k + count = b.length
    · rw [hlast hend, List.length_nil] at hlen
      refine ⟨k - 1, by omega, .inl (by omega), ?_⟩
      rw [carry_of_lt _ _ (by omega)]
      omega
    · refine ⟨b.length - 1, by omega, .inr (by omega), ?_⟩
      rw [carry_of_le _ (by omega)]
      omega
  obtain ⟨s, -, hs, -, hpos⟩ := exists_kept hk h hstays (List.getElem?_eq_getElem hl)
  have hnext := start_succ hs
  have hmono := start_mono (instructionsOf out) (show m ≤ carry k count added.length l by omega)
  rw [hcarry, start_length] at hnext
  omega

/-- The position `t` lies inside the jump with index `l`, which is so narrow in `c` that it no longer
reaches back to a position that far from its end. -/
structure NarrowedPast (b : Block) (k count length : Nat) (c : Block) (l t : Nat) : Prop where
  stays : Stays k count l
  isJump : ∃ i, b[l]? = some i ∧ i.flow.isJump = true
  start_lt : b.start l < t
  lt_end : t < b.start (l + 1)
  size_le : c.start (carry k count length l + 1) + t ≤
    c.start (carry k count length l) + b.start (l + 1)

/-- The jump with index `j` leads into one that is narrowed past the target. In `c` it leads to an
instruction as far from the end of that jump as its target was. -/
def Overshoots (b : Block) (k count length : Nat) (c : Block) (j : Nat) : Prop :=
  ∃ i t l m, b[j]? = some i ∧ i.target? (b.start j) = some t ∧
    b.NarrowedPast k count length c l t ∧ c.LeadsTo (carry k count length j) m ∧
    c.start m + b.start (l + 1) = c.start (carry k count length l + 1) + t

/-- Every jump that stays leads to an instruction, unless it leads into a jump that is narrowed past
the target. In code past the 32-bit range a jump may be without a target as well. -/
def Aimed (b : Block) (k count length : Nat) (c : Block) : Prop :=
  ∀ j i, Stays k count j → b[j]? = some i → i.flow.isJump = true →
    (∃ m, b.LeadsTo j m) ∨ b.Overshoots k count length c j ∨
      (limit32 ≤ b.size ∧ i.target? (b.start j) = none)

/-- A position inside an instruction that comes to the start of one lies in a jump, which is narrowed
past it. -/
theorem narrowedPast_of_image (hb : b.Solid) (hk : k + count ≤ b.length)
    (h : Adapted (b.spliceShift k count added) (b.splicedSlots k count added) out shifts)
    {l m t : Nat} (hl : l < b.length) (hstays : Stays k count l) (ht : start b l < t)
    (ht' : t < start b (l + 1)) (himage : Shift.image shifts t = start (instructionsOf out) m) :
    ¬ 0 < (b.spliceShift k count added).delta ∧
      b.NarrowedPast k count added.length (instructionsOf out) l t ∧
      start (instructionsOf out) m + start b (l + 1) =
        start (instructionsOf out) (carry k count added.length l + 1) + t := by
  have hinside := image_inside hb hk h hl hstays ht ht'
  have hi := List.getElem?_eq_getElem hl
  obtain ⟨s, -, hs, hleans, -⟩ := exists_kept hk h hstays hi
  have hnext := start_succ hs
  have hold := start_succ hi
  -- The start is in front of the end of the instruction, so it is that of the instruction at most.
  have hmstart : start (instructionsOf out) m ≤
      start (instructionsOf out) (carry k count added.length l) := by
    refine start_mono _ (Nat.le_of_not_lt fun hlater => ?_)
    have := start_mono (instructionsOf out) (show carry k count added.length l + 1 ≤ m from hlater)
    omega
  have hnarrow : s.instruction.size < b[l].size := by omega
  refine ⟨fun hgrow => ?_, ⟨hstays, ⟨_, hi, ?_⟩, ht, ht', by omega⟩, by omega⟩
  · have htoward := hleans.toward
    rw [decide_eq_true hgrow, toward_true] at htoward
    simp only [Instruction.size, wordSize, Slot.ofPlaced] at hnarrow htoward
    omega
  · by_contra hother
    have hkept : s.instruction = b[l] :=
      (resized_of_follows hleans.follows).eq_of_not_isJump (Bool.eq_false_iff.2 hother)
    rw [hkept] at hnarrow
    exact lt_irrefl _ hnarrow

/-- The checks give every jump that stays a target, where the changes put the old one. -/
theorem exists_leadsTo_of_checks (hk : k + count ≤ b.length)
    (h : Adapted (b.spliceShift k count added) (b.splicedSlots k count added) out shifts)
    (hlayout : checkLayout shifts out = .ok ()) (hclosed : Closed (instructionsOf out)) {j t : Nat}
    {i : Instruction} (hj : Stays k count j) (hi : b[j]? = some i)
    (ht : i.target? (start b j) = some t) :
    ∃ m, (instructionsOf out).LeadsTo (carry k count added.length j) m ∧
      Shift.image shifts t = start (instructionsOf out) m := by
  obtain ⟨s, hs, hsi, hleans, -⟩ := exists_kept hk h hj hi
  obtain ⟨m, hm⟩ := hclosed _ _ hsi (hleans.follows.flow_eq ▸ isJump_of_target? ht)
  have hcheck := (checkSlot_eq_ok_iff.1 (checkLayout_eq_ok_iff.1 hlayout _ _ hs) _
    hleans.follows.origin_eq).2 t ht
  rw [(hm.target?_eq hsi).2] at hcheck
  exact ⟨m, hm, (Option.some.inj hcheck).symm⟩

section Checks

variable (hb : b.Solid) (hk : k + count ≤ b.length) (hlast : k + count = b.length → added = [])
  (hfree : b.Unentered k count)
  (h : Adapted (b.spliceShift k count added) (b.splicedSlots k count added) out shifts)
  (hlayout : checkLayout shifts out = .ok ()) (hclosed : Closed (instructionsOf out))
include hb hk hlast hfree h hlayout hclosed

/-- A jump that stays and passes the checks has led to an instruction, or into a jump that is
narrowed past the target. -/
theorem aims_of_checks {j t : Nat} {i : Instruction} (hj : Stays k count j) (hi : b[j]? = some i)
    (ht : i.target? (start b j) = some t) :
    (∃ m, b.LeadsTo j m) ∨ ¬ 0 < (b.spliceShift k count added).delta ∧
      b.Overshoots k count added.length (instructionsOf out) j := by
  obtain ⟨m, hm, himage⟩ := exists_leadsTo_of_checks hk h hlayout hclosed hj hi ht
  by_cases hsize : t < b.size
  · obtain ⟨l, hl, hle, hlt⟩ := exists_index_of_lt_size hsize
    rcases hle.eq_or_lt with rfl | hgt
    · exact .inl ⟨l, hl, i, hi, isJump_of_target? ht, ht⟩
    · have hstays : Stays k count l := by
        by_contra hremoved
        unfold Stays at hremoved
        have hfirst : start b k ≤ start b l := start_mono b (by omega)
        have hstop : start b (l + 1) ≤ start b (k + count) := start_mono b (by omega)
        exact hfree j i t hj hi ht ⟨by omega, by omega⟩
      obtain ⟨hgrow, hpast, hdistance⟩ := narrowedPast_of_image hb hk h hl hstays hgt hlt himage
      exact .inr ⟨hgrow, i, t, l, m, hi, ht, hpast, hm, hdistance⟩
  · have hbehind := image_of_size_le hb hk h (Nat.le_of_not_lt hsize)
    have := start_lt_size_of_adapted hk hlast h hm.1
    omega

end Checks

/-- A jump without a target is a relative one past the 32-bit range. -/
theorem limit_le_of_target?_eq_none {j : Nat} {i : Instruction} (hi : b[j]? = some i)
    (hjump : i.flow.isJump = true) (hnone : i.target? (start b j) = none) :
    i.flow = .relativeJump ∧ limit32 ≤ start b (j + 1) + i.operand.toNat := by
  have hreach : ¬ base b i.flow j + i.operand.toNat < limit32 := fun hlt => by
    cases hnone.symm.trans ((target?_eq_some_iff hi hjump).2 ⟨rfl, hlt⟩)
  have hoperand : i.operand.toNat < limit32 := i.operand.toNat_lt
  unfold base at hreach
  split at hreach
  · rename_i hrelative
    exact ⟨hrelative, Nat.le_of_not_lt hreach⟩
  · rw [Nat.zero_add] at hreach
    exact absurd hoperand hreach

/-- A jump that is left without a target by the 32-bit range passes the checks only if the code does
not grow and goes past the range itself. -/
theorem limit_le_of_no_target (hb : b.Solid) (hk : k + count ≤ b.length)
    (h : Adapted (b.spliceShift k count added) (b.splicedSlots k count added) out shifts)
    (hclosed : Closed (instructionsOf out)) {j : Nat} {i : Instruction} (hj : Stays k count j)
    (hi : b[j]? = some i) (hjump : i.flow.isJump = true) (hnone : i.target? (start b j) = none) :
    ¬ 0 < (b.spliceShift k count added).delta ∧ limit32 ≤ b.size := by
  have hlen := (List.getElem?_eq_some_iff.1 hi).1
  obtain ⟨hrelative, hreach⟩ := limit_le_of_target?_eq_none hi hjump hnone
  obtain ⟨s, hs, hsi, hleans, -⟩ := exists_kept hk h hj hi
  -- Without a target the jump is none that relocation changes.
  have hkept : s.instruction = i := congrArg Slot.instruction
    (hleans.follows.eq_of_not_jumps fun o t ht => by
      cases ht.origin_eq
      cases hnone.symm.trans ht.target_eq)
  rw [hkept] at hsi
  obtain ⟨m, hm⟩ := hclosed _ _ hsi hjump
  obtain ⟨hlanding, hm32⟩ := (target?_eq_some_iff hsi hjump).1 (hm.target?_eq hsi).2
  have hmsize := start_le_size (instructionsOf out) m
  rw [base, if_pos hrelative] at hlanding
  -- The end of the jump and that of the code have moved by the changes in front of them.
  have hlast := lastByte_inside hb hi
  have hend := image_inside hb hk h hlen hj hlast.1 hlast.2
  have hsize := image_of_size_le hb hk h le_rfl
  rw [Shift.image_eq_add_tally] at hend hsize
  have hfront := h.tally_toward (fun s hs => atOrigin_of_mem_splicedSlots hk hs)
    (Shift.ahead (start b j + i.size - 1))
  have hback := h.tally_toward (fun s hs => atOrigin_of_mem_splicedSlots hk hs)
    fun p o => Shift.ahead b.size p o && !Shift.ahead (start b j + i.size - 1) p o
  rw [Shift.tally_sub fun p o hp => by
    have := start_le_size b (j + 1)
    cases p <;> simp only [Shift.ahead, decide_eq_true_eq] at hp ⊢ <;> omega] at hback
  by_cases hgrow : 0 < (b.spliceShift k count added).delta
  · rw [decide_eq_true hgrow, toward_true] at hfront
    omega
  · rw [decide_eq_false hgrow, toward_false] at hback
    exact ⟨hgrow, by omega⟩

section Checked

variable (hb : b.Solid) (hk : k + count ≤ b.length) (hlast : k + count = b.length → added = [])
  (hfree : b.Unentered k count)
  (h : Adapted (b.spliceShift k count added) (b.splicedSlots k count added) out shifts)
  (hlayout : checkLayout shifts out = .ok ()) (hclosed : Closed (instructionsOf out))
include hb hk hlast hfree h hlayout hclosed

theorem aimed_of_checks : b.Aimed k count added.length (instructionsOf out) := by
  intro j i hj hi hjump
  cases ht : i.target? (start b j) with
  | none => exact .inr (.inr ⟨(limit_le_of_no_target hb hk h hclosed hj hi hjump ht).2, rfl⟩)
  | some t =>
    rcases aims_of_checks hb hk hlast hfree h hlayout hclosed hj hi ht with hleads | ⟨-, hover⟩
    · exact .inl hleads
    · exact .inr (.inl hover)

/-- While the code grows every jump that stays has led to an instruction. -/
theorem exists_leadsTo_of_growing (hgrow : 0 < (b.spliceShift k count added).delta) {j : Nat}
    {i : Instruction} (hj : Stays k count j) (hi : b[j]? = some i) (hjump : i.flow.isJump = true) :
    ∃ m, b.LeadsTo j m := by
  cases ht : i.target? (start b j) with
  | none => exact absurd hgrow (limit_le_of_no_target hb hk h hclosed hj hi hjump ht).1
  | some t =>
    rcases aims_of_checks hb hk hlast hfree h hlayout hclosed hj hi ht with hleads | ⟨hnot, -⟩
    · exact hleads
    · exact absurd hgrow hnot

end Checked

end Block

section Edits

/-- A jump that stays in edited code has led to an instruction, unless the edit narrows a jump past
the target. An insertion of any bytes narrows none, so all jumps have led to instructions. The size
of what is put in or taken out is told in full, as it is below the limit, and so are the sizes of
code that is below the limit. -/
theorem aimed_of_edit (code : List UInt8) (offset : Nat) :
    (∀ added e, insertAt code added offset = .ok e → ∃ b k c, Block.decode code = .ok b ∧
      k < b.length ∧ b.start k = offset ∧
      List.Forall₂ Instruction.Resized (b.spliced k 0 added) c ∧ e.code = Block.encode c ∧
      b.Aimed k 0 added.length c ∧ (0 < added.size → b.Closed) ∧
      added.size32.toNat = added.size ∧ (code.length < limit32 → b.size32.toNat = b.size) ∧
      (e.code.length < limit32 → (Block.size32 c).toNat = Block.size c)) ∧
    (∀ count e, removeAt code offset count = .ok e → ∃ b k c, Block.decode code = .ok b ∧
      k < b.length ∧ b.start k = offset ∧ k + count ≤ b.length ∧
      List.Forall₂ Instruction.Resized (b.spliced k count []) c ∧ Block.decode e.code = .ok c ∧
      b.Aimed k count 0 c ∧
      e.removed.size32.toNat = e.removed.size ∧ (code.length < limit32 → b.size32.toNat = b.size) ∧
      (e.code.length < limit32 → (Block.size32 c).toNat = Block.size c)) := by
  constructor
  · intro added e h
    obtain ⟨b, k, out, hdecode, hk, hstart, -, -, hadapted, hlayout, hclosed, hcode⟩ :=
      exists_adapted_of_insertAt h
    have hsolid := Block.solid_of_encodable (Block.encodable_of_decode hdecode)
    have hlast : k + 0 = b.length → added = [] := fun hend => absurd hend hk.ne
    have hfree := b.unentered_zero k
    refine ⟨b, k, instructionsOf out, hdecode, hk, hstart,
      Block.resized_instructionsOf hadapted.follows, hcode,
      Block.aimed_of_checks hsolid hk.le hlast hfree hadapted hlayout hclosed, fun hpos => ?_,
      Block.toNat_size32_eq_iff.2 ((size_lt_of_insertAt h).trans (by decide)),
      Block.toNat_size32_of_decode hdecode,
      fun hlimit => Block.toNat_size32_of_encode (hcode ▸ hlimit)⟩
    have hgrow := of_decide_eq_true (Block.growing_of_insertion b k hpos)
    exact fun j i hi hjump => Block.exists_leadsTo_of_growing hsolid hk.le hlast hfree hadapted
      hlayout hclosed hgrow (Block.stays_zero k j) hi hjump
  · intro count e h
    obtain ⟨b, k, out, hdecode, hk, hstart, hstop, hfree, hrelocate, hadapted, hlayout, hclosed,
      hcode, -⟩ := exists_adapted_of_removeAt h
    have hencodable := Block.encodable_of_decode hdecode
    have hsolid := Block.solid_of_encodable hencodable
    have hrelocated := Block.relocated_of_relocate hencodable Block.addable_nil.placeable.fits hstop
      hrelocate
    have hread := Block.decode_encode (Block.encodable_of_follows hencodable (by simp)
      hadapted.follows hrelocated.fits)
    exact ⟨b, k, instructionsOf out, hdecode, hk, hstart, hstop,
      Block.resized_instructionsOf hadapted.follows, hcode ▸ hread,
      Block.aimed_of_checks hsolid hstop (fun _ => rfl) hfree hadapted hlayout hclosed,
      Block.toNat_size32_eq_iff.2 ((size_lt_of_removeAt h).trans (by decide)),
      Block.toNat_size32_of_decode hdecode,
      fun hlimit => Block.toNat_size32_of_encode (hcode ▸ hlimit)⟩

/-- Two jumps behind an instruction without effect. The first one leads into the second one, which
has a word more than it needs. -/
def Block.loose : Block :=
  [.bare .nop, ⟨.jumpAbsolute, 6, 1⟩, ⟨.jumpAbsolute, 8, 2⟩, .bare .returnValue]

theorem Block.decode_loose : decode (encode loose) = .ok loose := decode_encode (by decide)

theorem removeAt_loose : removeAt (Block.encode .loose) 0 1 =
    .ok ⟨Block.encode [⟨.jumpAbsolute, 2, 1⟩, ⟨.jumpAbsolute, 4, 1⟩, .bare .returnValue],
      [.before 2 (-2), .within 4 (-2)], [.bare .nop]⟩ :=
  removeAt_eq_ok_iff.2 ⟨_, ⟨[.ofPlaced ⟨.jumpAbsolute, 6, 1⟩ 2, .ofPlaced ⟨.jumpAbsolute, 8, 2⟩ 4,
      .ofPlaced (.bare .returnValue) 8], .before 2 (-2), [.bare .nop]⟩,
    Block.ofCode_eq_ok_iff.2 ⟨Block.decode_loose, by decide⟩, by decide,
    Block.finish_eq_ok_iff.2 ⟨_, rfl, rfl, by decide, rfl, rfl⟩⟩

theorem Block.not_leadsTo_loose (m : Nat) : ¬ loose.LeadsTo 1 m := by
  rintro ⟨hm, i, hi, -, ht⟩
  cases hi
  have hlt : m < 4 := hm
  interval_cases m <;> exact absurd ht (by decide)

/-- Without the first instruction the second jump needs one word less. What was the middle of it
comes to its start, and the removal succeeds. -/
theorem exists_overshoots :
    (∃ e b, insertAt (Block.encode [⟨.jumpAbsolute, 2, 1⟩, .bare .returnValue]) [.bare .nop] 0 =
        .ok e ∧
      Block.decode (Block.encode [⟨.jumpAbsolute, 2, 1⟩, .bare .returnValue]) = .ok b ∧ b.Closed) ∧
    ∃ e c, removeAt (Block.encode .loose) 0 1 = .ok e ∧ Block.decode e.code = .ok c ∧
      (¬ ∃ m, Block.loose.LeadsTo 1 m) ∧ Block.loose.Overshoots 0 1 0 c 1 := by
  constructor
  · have hinsert : insertAt (Block.encode [⟨.jumpAbsolute, 2, 1⟩, .bare .returnValue]) [.bare .nop]
        0 = .ok ⟨Block.encode [.bare .nop, ⟨.jumpAbsolute, 4, 1⟩, .bare .returnValue],
          [.before 0 2], []⟩ :=
      insertAt_eq_ok_iff.2 ⟨_, ⟨[.fresh (.bare .nop), .ofPlaced ⟨.jumpAbsolute, 2, 1⟩ 0,
          .ofPlaced (.bare .returnValue) 2], .before 0 2, []⟩,
        Block.ofCode_eq_ok_iff.2 ⟨Block.decode_encode (by decide), by decide⟩, by decide,
        Block.finish_eq_ok_iff.2 ⟨_, rfl, rfl, by decide, rfl, rfl⟩⟩
    obtain ⟨b, k, c, hdecode, -, -, -, -, -, hclosed, -⟩ := (aimed_of_edit _ 0).1 _ _ hinsert
    exact ⟨_, b, hinsert, hdecode, hclosed (by decide)⟩
  · obtain ⟨b, k, c, hdecode, hk, hstart, -, -, hread, haimed, -⟩ :=
      (aimed_of_edit _ 0).2 _ _ removeAt_loose
    cases Block.decode_loose.symm.trans hdecode
    have hsolid : Block.loose.Solid := by
      unfold Block.Solid
      decide
    obtain rfl : k = 0 := Block.start_inj hsolid hk.le (Nat.zero_le _) hstart
    have hmissed : ¬ ∃ m, Block.loose.LeadsTo 1 m := fun ⟨m, hm⟩ => Block.not_leadsTo_loose m hm
    rcases haimed 1 ⟨.jumpAbsolute, 6, 1⟩ (.inr le_rfl) rfl rfl with hleads | hover | ⟨hlarge, -⟩
    · exact absurd hleads hmissed
    · exact ⟨_, c, removeAt_loose, hread, hmissed, hover⟩
    · exact absurd hlarge (by decide)

end Edits

end Tripwire
