import Tripwire.Proofs.Splice.Extent

/-!
# Taking instructions out of code

A range of instructions can be taken out of valid code when no jump that stays
leads into it behind its start, and none to its start if nothing follows it.
Relocation then only narrows jumps, so there is always room.

* `Block.draftRemove_eq_ok_iff`: the drafts of removals, with `Block.Unentered` for code whose jumps
  may lead anywhere;
* `exists_adapted_of_removeAt`, `exists_out_of_removeAt`: a removal that succeeds, with its
  relocation;
* `removeAt_spec`: when a removal succeeds and what it makes.
-/

namespace Tripwire

namespace Block

variable {b : Block} {offset k count : Nat}

theorem size_drop_take (b : Block) (k count : Nat) :
    (size ((b.drop k).take count) : Int) = start b (k + count) - start b k := by
  have hsize : start (b.drop k) count = size ((b.drop k).take count) := rfl
  rw [start_add, hsize]
  omega

theorem spliceShift_nil (b : Block) (k count : Nat) :
    b.spliceShift k count [] =
      .before (start b k + size ((b.drop k).take count)) (-size ((b.drop k).take count)) := by
  have hsize := size_drop_take b k count
  rw [spliceShift, size_nil, hsize]
  congr 1
  · omega
  · omega

/-- A removal makes the code no longer. -/
theorem not_growing_of_removal (b : Block) (k count : Nat) :
    decide (0 < (b.spliceShift k count []).delta) = false := by
  rw [spliceShift_nil, decide_eq_false_iff_not]
  simp only [Shift.before]
  omega

/-- The changes of a removal are the removal itself and jumps that get narrower. -/
theorem exists_resizing_of_removal {out : List Slot} {shifts : List Shift}
    (hb : ∀ i ∈ b, i.Encodable) (hk : k + count ≤ b.length)
    (h : relocate (b.spliceShift k count []) (b.splicedSlots k count []) = .ok (out, shifts)) :
    ∃ rest, shifts = b.spliceShift k count [] :: rest ∧
      ∀ c ∈ rest, Resizing false (b.splicedSlots k count []) c := by
  have hshifts := shifts_of_relocate (fun s hs => atOrigin_of_mem_splicedSlots hk hs)
    (fun s hs => fits_of_mem_splicedSlots hb (by simp) hs) h
  rwa [not_growing_of_removal] at hshifts

theorem addable_nil : Addable [] := ⟨by simp, by simp⟩

/-- No jump that stays has its target behind the start of a range and in front of its end. -/
def Unentered (b : Block) (k count : Nat) : Prop :=
  ∀ j i t, Stays k count j → b[j]? = some i → i.target? (start b j) = some t →
    ¬ (start b k < t ∧ t < start b (k + count))

theorem unentered_zero (b : Block) (k : Nat) : b.Unentered k 0 := by
  intro j i t _ _ _ hinside
  rw [Nat.add_zero] at hinside
  omega

/-- In valid code the targets are instructions. -/
theorem spares_iff (hb : b.Valid) (hk : k + count ≤ b.length) :
    b.Spares k count ↔ b.Unentered k count := by
  constructor
  · intro hspares j i t hj hi ht hinside
    have hjump : i.flow.isJump = true := isJump_of_target? ht
    obtain ⟨m, hjm⟩ := hb.closed j i hi hjump
    have hm := hjm.1
    have htarget := (hjm.target?_eq hi).2
    obtain rfl : start b m = t := Option.some.inj (htarget.symm.trans ht)
    have h1 := (start_lt_start_iff hb.solid hm.le).1 hinside.1
    have h2 := (start_lt_start_iff hb.solid hk).1 hinside.2
    have := hspares j m hj hjm
    omega
  · intro h j m hj hjm
    obtain ⟨hm, i, hi, hjump, htarget⟩ := id hjm
    have hinside := h j i _ hj hi htarget
    rw [start_lt_start_iff hb.solid hm.le, start_lt_start_iff hb.solid hk] at hinside
    omega

/-- The search for a jump into the range finds none. -/
theorem findSome?_eq_none_iff_unentered (hk : k + count ≤ b.length) :
    ((b.slots.take k ++ b.slots.drop (k + count)).findSome? fun s : Slot =>
        s.origin.bind fun o =>
          if o.target.any fun t => start b k < t &&
            t < start b k + size ((b.drop k).take count) then some (s.instruction, o)
          else none) = none ↔ b.Unentered k count := by
  have hsize := size_drop_take b k count
  have hslots : b.slots.take k ++ b.slots.drop (k + count) = b.splicedSlots k count [] := by
    simp [splicedSlots]
  rw [List.findSome?_eq_none_iff, hslots]
  constructor
  · intro h j i t hj hi ht hinside
    have hget : (b.splicedSlots k count [])[carry k count 0 j]? = b.slots[j]? :=
      getElem?_splicedSlots_carry hk hj
    rw [getElem?_slots, hi] at hget
    have hlost := h _ (List.mem_of_getElem? hget)
    simp [Slot.ofPlaced, ht] at hlost
    omega
  · intro h s hs
    obtain ⟨l, hl⟩ := List.mem_iff_getElem?.1 hs
    rcases exists_of_getElem?_splicedSlots hk hl with ⟨i, hi, rfl⟩ | ⟨j, i, hj, -, hi, rfl⟩
    · rfl
    · cases ht : i.target? (start b j) with
      | none => simp [Slot.ofPlaced, ht]
      | some t =>
        have hinside := h j i t hj hi ht
        simp [Slot.ofPlaced, ht]
        omega

theorem draftRemove_eq_ok_iff_unentered (hb : b.Solid) {d : Draft} :
    b.draftRemove offset count = .ok d ↔ ∃ k < b.length, start b k = offset ∧
      k + count ≤ b.length ∧ size ((b.drop k).take count) < limit32 / 2 ∧ b.Unentered k count ∧
      d = ⟨b.splicedSlots k count [], b.spliceShift k count [], (b.drop k).take count⟩ := by
  simp only [draftRemove, bind_eq_ok_iff, indexAt_eq_ok_iff hb]
  constructor
  · rintro ⟨k, ⟨hk, rfl⟩, h⟩
    split at h
    · cases h
    · rename_i hstop
      split at h
      · rename_i hsize
        split at h
        · cases h
        · rename_i hnone
          have hlen : k + count ≤ b.length := Nat.le_of_not_lt hstop
          rw [pure_eq_ok_iff] at h
          refine ⟨k, hk, rfl, hlen, hsize, (findSome?_eq_none_iff_unentered hlen).1 hnone, ?_⟩
          rw [spliceShift_nil, ← h]
          simp [splicedSlots]
      · cases h
  · rintro ⟨k, hk, rfl, hlen, hsize, hfree, rfl⟩
    refine ⟨k, ⟨hk, rfl⟩, ?_⟩
    rw [if_neg (Nat.not_lt_of_le hlen)]
    simp only [if_pos hsize, (findSome?_eq_none_iff_unentered hlen).2 hfree]
    rw [spliceShift_nil, pure_eq_ok_iff]
    simp [splicedSlots]

theorem draftRemove_eq_ok_iff (hb : b.Valid) {d : Draft} :
    b.draftRemove offset count = .ok d ↔ ∃ k < b.length, start b k = offset ∧
      k + count ≤ b.length ∧ size ((b.drop k).take count) < limit32 / 2 ∧ b.Spares k count ∧
      d = ⟨b.splicedSlots k count [], b.spliceShift k count [], (b.drop k).take count⟩ := by
  rw [draftRemove_eq_ok_iff_unentered hb.solid]
  refine exists_congr fun k => and_congr_right fun _ => and_congr_right fun _ =>
    and_congr_right fun hlen => ?_
  rw [spares_iff hb hlen]

end Block

section Remove

variable {code : List UInt8} {b : Block} {offset count : Nat} {e : Edit}

theorem removeAt_eq_ok_iff :
    removeAt code offset count = .ok e ↔ ∃ b d, Block.ofCode code = .ok b ∧
      b.draftRemove offset count = .ok d ∧ d.finish = .ok e := by
  simp only [removeAt, Block.remove, bind_eq_ok_iff]
  constructor
  · rintro ⟨b, hb, d, hd, he⟩
    exact ⟨b, d, hb, hd, he⟩
  · rintro ⟨b, d, hb, hd, he⟩
    exact ⟨b, hb, d, hd, he⟩

/-- A removal from any code that succeeds, with the relocation and the checks behind it. -/
theorem exists_adapted_of_removeAt (h : removeAt code offset count = .ok e) :
    ∃ b k out, Block.decode code = .ok b ∧ k < b.length ∧ b.start k = offset ∧
      k + count ≤ b.length ∧ b.Unentered k count ∧
      relocate (b.spliceShift k count []) (b.splicedSlots k count []) = .ok (out, e.shifts) ∧
      Adapted (b.spliceShift k count []) (b.splicedSlots k count []) out e.shifts ∧
      checkLayout e.shifts out = .ok () ∧ Block.Closed (instructionsOf out) ∧
      e.code = Block.encode (instructionsOf out) ∧ e.removed = (b.drop k).take count := by
  obtain ⟨b, d, hcode, hdraft, hfinish⟩ := removeAt_eq_ok_iff.1 h
  obtain ⟨hdecode, -⟩ := Block.ofCode_eq_ok_iff.1 hcode
  have hencodable := Block.encodable_of_decode hdecode
  obtain ⟨k, hk, hstart, hlen, -, hfree, rfl⟩ :=
    (Block.draftRemove_eq_ok_iff_unentered (Block.solid_of_encodable hencodable)).1 hdraft
  obtain ⟨out, hrelocate, hlayout, hclosed, hout, hremoved⟩ := Block.finish_eq_ok_iff.1 hfinish
  exact ⟨b, k, out, hdecode, hk, hstart, hlen, hfree, hrelocate,
    Block.adapted_of_relocate hencodable hlen hrelocate, hlayout, hclosed, hout, hremoved⟩

/-- The size of a range that is taken out is below half of the limit. -/
theorem size_lt_of_removeAt (h : removeAt code offset count = .ok e) :
    e.removed.size < limit32 / 2 := by
  obtain ⟨b, d, hcode, hdraft, hfinish⟩ := removeAt_eq_ok_iff.1 h
  have hsolid := Block.solid_of_encodable
    (Block.encodable_of_decode (Block.ofCode_eq_ok_iff.1 hcode).1)
  obtain ⟨k, -, -, -, hsize, -, rfl⟩ := (Block.draftRemove_eq_ok_iff_unentered hsolid).1 hdraft
  obtain ⟨out, -, -, -, -, hremoved⟩ := Block.finish_eq_ok_iff.1 hfinish
  rwa [hremoved]

/-- A removal that succeeds, with the relocation behind it. -/
theorem exists_out_of_removeAt (hdecode : Block.decode code = .ok b) (hb : b.Valid)
    (h : removeAt code offset count = .ok e) :
    ∃ k out, k < b.length ∧ b.start k = offset ∧ k + count ≤ b.length ∧ b.Spares k count ∧
      relocate (b.spliceShift k count []) (b.splicedSlots k count []) = .ok (out, e.shifts) ∧
      Relocated (b.spliceShift k count []) (b.splicedSlots k count []) out e.shifts ∧
      e.code = Block.encode (instructionsOf out) ∧
      e.removed = (b.drop k).take count ∧
      b.Spliced k count [] (instructionsOf out) e.shifts := by
  obtain ⟨b', k, out, hdecode', hk, hstart, hlen, hfree, hrelocate, -, -, hclosed, hout, hremoved⟩ :=
    exists_adapted_of_removeAt h
  rw [hdecode] at hdecode'
  cases hdecode'
  have hspares := (Block.spares_iff hb hlen).2 hfree
  have hrelocated := Block.relocated_of_relocate hb.encodable Block.addable_nil.placeable.fits hlen
    hrelocate
  exact ⟨k, out, hk, hstart, hlen, hspares, hrelocate, hrelocated, hout, hremoved,
    Block.spliced_of_relocated hb Block.addable_nil hlen hspares hrelocated hclosed⟩

/-- What is taken out are the instructions of the range. -/
theorem removed_of_removeAt {k : Nat} (hdecode : Block.decode code = .ok b) (hb : b.Valid)
    (hk : k ≤ b.length) (h : removeAt code (b.start k) count = .ok e) :
    e.removed = (b.drop k).take count := by
  obtain ⟨k', out, hk', hstart, -, -, -, -, -, hremoved, -⟩ := exists_out_of_removeAt hdecode hb h
  rwa [Block.start_inj hb.solid hk'.le hk hstart] at hremoved

/-- The code shrinks when a range is taken out. -/
theorem length_le_of_removeAt (hdecode : Block.decode code = .ok b) (hb : b.Valid)
    (h : removeAt code offset count = .ok e) : e.code.length ≤ code.length := by
  obtain ⟨k, out, -, -, -, -, -, hrelocated, hcode, -, hspliced⟩ :=
    exists_out_of_removeAt hdecode hb h
  have hleans := hrelocated.leans
  rw [b.not_growing_of_removal k count] at hleans
  have hshrunk := Block.size_le_of_within (Block.within_of_shrinking hleans)
  have hplain := Block.size_spliced_le b k count []
  rw [Block.instructionsOf_splicedSlots] at hshrunk
  rw [Block.size_nil] at hplain
  rw [hcode, Block.length_encode_of_encodable hspliced.valid.encodable,
    ← Block.size_of_decode hdecode]
  omega

/-- A range can be taken out that no jump leads into, unless one leads to its start and nothing
follows it. -/
theorem exists_removeAt {k : Nat} (hdecode : Block.decode code = .ok b) (hb : b.Valid)
    (hk : k < b.length) (hstop : k + count ≤ b.length) (hspares : b.Spares k count)
    (hend : k + count = b.length → ∀ j, Stays k count j → ¬ b.LeadsTo j k)
    (hremoved : Block.size ((b.drop k).take count) < limit32 / 2) (hsize : b.size < limit32) :
    ∃ e, removeAt code (b.start k) count = .ok e := by
  have hceiling : Block.ceiling (decide (0 < (b.spliceShift k count []).delta))
      (b.spliced k count []) < limit32 := by
    have hplain := Block.size_spliced_le b k count []
    rw [b.not_growing_of_removal k count]
    simp only [Block.ceiling, Bool.false_eq_true, if_false]
    rw [Block.size_nil] at hplain
    omega
  obtain ⟨e, he⟩ := Block.exists_finish ((b.drop k).take count) hb
    Block.addable_nil hstop hspares hceiling fun j m hj hjm => by
      have hm := hjm.1
      have hmk := hspares j m hj hjm
      have hlast : ¬ (k + count = b.length ∧ m = k) := by
        rintro ⟨hreach, rfl⟩
        exact hend hreach j hj hjm
      rw [List.length_nil]
      unfold carry
      split <;> omega
  exact ⟨e, removeAt_eq_ok_iff.2 ⟨b, _, Block.ofCode_eq_ok_iff.2 ⟨hdecode, hb.steady⟩,
    (Block.draftRemove_eq_ok_iff hb).2 ⟨k, hk, rfl, hstop, hremoved, hspares, rfl⟩, he⟩⟩

/-- A range of instructions can be taken out of valid code exactly when it lies in the code, no jump
that stays leads into it behind its start, and none leads to its start when it reaches the end. What
comes out is the code without the range, and no jump is wider than it was. -/
theorem removeAt_spec (hdecode : Block.decode code = .ok b)
    (hsteady : ∀ i ∈ b, i.flow ≠ .suspension) (hclosed : b.Closed)
    (hsize : code.length < limit32 / 2) :
    ((∃ e, removeAt code offset count = .ok e) ↔ ∃ k < b.length, b.start k = offset ∧
      k + count ≤ b.length ∧
      (∀ j m, Stays k count j → b.LeadsTo j m → m ≤ k ∨ k + count ≤ m) ∧
      (k + count = b.length → ∀ j, Stays k count j → ¬ b.LeadsTo j k)) ∧
      ∀ e, removeAt code offset count = .ok e → ∃ k c, k < b.length ∧ b.start k = offset ∧
        Block.decode e.code = .ok c ∧ b.Spliced k count [] c e.shifts ∧
        List.Forall₂ (fun i i' => i'.width ≤ i.width) (b.spliced k count []) c ∧
        e.removed = (b.drop k).take count ∧
        (e.code.length : Int) = code.length + e.sizeDelta := by
  have hb : b.Valid := ⟨Block.encodable_of_decode hdecode, hsteady, hclosed⟩
  have hlen := Block.size_of_decode hdecode
  refine ⟨⟨?_, ?_⟩, ?_⟩
  · rintro ⟨e, he⟩
    obtain ⟨k, out, hk, hstart, hstop, hspares, -, hrelocated, -, -, hspliced⟩ :=
      exists_out_of_removeAt hdecode hb he
    refine ⟨k, hk, hstart, hstop, hspares, fun hend j hj hjk => ?_⟩
    -- A jump to the start of the range would lead behind the last instruction left.
    have hfollows := hrelocated.leans.imp fun _ _ hleans => hleans.follows
    have hcount := Block.length_instructionsOf_of_follows hstop hfollows
    have hleads := (hspliced.leadsTo j k hj hjk).1
    rw [List.length_nil] at hcount hleads
    unfold carry at hleads
    split at hleads <;> omega
  · rintro ⟨k, hk, rfl, hstop, hspares, hend⟩
    have hremoved : Block.size ((b.drop k).take count) < limit32 / 2 := by
      have h1 := Block.size_drop_take b k count
      have h2 := b.start_le_size (k + count)
      omega
    exact exists_removeAt hdecode hb hk hstop hspares hend hremoved (by
      rw [hlen]
      simp only [limit32] at hsize ⊢
      omega)
  · intro e he
    obtain ⟨k, out, hk, hstart, hstop, -, -, hrelocated, hcode, hremoved, hspliced⟩ :=
      exists_out_of_removeAt hdecode hb he
    have hencodable := hspliced.valid.encodable
    refine ⟨k, instructionsOf out, hk, hstart, ?_, hspliced, ?_, hremoved, ?_⟩
    · rw [hcode, Block.decode_encode hencodable]
    · have hleans := hrelocated.leans
      rw [b.not_growing_of_removal k count] at hleans
      rw [← Block.instructionsOf_splicedSlots]
      exact Block.within_of_shrinking hleans
    · rw [hcode, Block.length_encode_of_encodable hencodable, hspliced.size_eq, hlen,
        Edit.sizeDelta]

/-- The target of a jump can be taken out when something follows it. -/
theorem exists_removeAt_jump_target : ∃ e,
    removeAt (Block.encode [⟨.jumpAbsolute, 2, 1⟩, .bare .nop, .bare .returnValue]) 2 1 =
      .ok e := by
  refine (removeAt_spec (Block.decode_encode (by decide)) (by decide) (by decide)
    (by decide)).1.2 ⟨1, by decide, rfl, by decide, fun j m _ _ => ?_, fun hend => ?_⟩
  · omega
  · cases hend

end Remove

end Tripwire
