import Tripwire.Proofs.Splice.Extent
import Tripwire.Proofs.Splice.Layout

/-!
# Splicing a block into code

A block can be spliced in front of every instruction of valid code, and only
there. What comes out is the old code with the block in place.

* `Block.draftInsert_eq_ok_iff`: the drafts of splices;
* `exists_adapted_of_insertAt`, `exists_relocated_of_fits`, `exists_laid_of_insertAt`,
  `exists_out_of_insertAt`: a splice that succeeds, with its relocation;
* `Block.Fitted`: the code with the block in place and jumps that are wide enough;
* `exists_insertAt_of_laid`, `exists_insertAt_iff`, `exists_insertAt`: a splice succeeds where it
  can be laid out below the limit;
* `insertAt_spec`: when a splice succeeds and what it makes;
* `exists_insertAt_iff_of_length`: the same, with a bound on the code that is there.
-/

namespace Tripwire

namespace Block

variable {b added : Block} {offset k : Nat}

theorem spliceShift_zero (b added : Block) (k : Nat) :
    b.spliceShift k 0 added = .before (start b k) added.size := by
  simp [spliceShift]

theorem spares_zero (b : Block) (k : Nat) : b.Spares k 0 := by
  intro j m _ _
  omega

theorem stays_zero (k m : Nat) : Stays k 0 m := by
  rw [Stays]
  omega

theorem draftInsert_eq_ok_iff (hb : b.Solid) {d : Draft} :
    b.draftInsert added offset = .ok d ↔ ∃ k < b.length, start b k = offset ∧
      (∀ i ∈ added, i.flow = .other) ∧ added.size < limit32 / 2 ∧
      d = ⟨b.splicedSlots k 0 added, b.spliceShift k 0 added, []⟩ := by
  have hfind : added.find? (fun i => i.flow ≠ .other) = none ↔ ∀ i ∈ added, i.flow = .other := by
    simp [List.find?_eq_none]
  simp only [draftInsert, bind_eq_ok_iff, indexAt_eq_ok_iff hb, spliceShift_zero]
  constructor
  · rintro ⟨k, ⟨hk, rfl⟩, h⟩
    split at h
    · cases h
    · rename_i hnone
      split at h
      · rename_i hsize
        rw [pure_eq_ok_iff] at h
        exact ⟨k, hk, rfl, hfind.1 hnone, hsize, h.symm⟩
      · cases h
  · rintro ⟨k, hk, rfl, hother, hsize, rfl⟩
    refine ⟨k, ⟨hk, rfl⟩, ?_⟩
    rw [hfind.2 hother]
    simp only [if_pos hsize]
    rfl

/-- The code `c` is `b` with the block spliced in before the instruction with index `k`. Its jumps
lead where their targets have come, with operands for which they are wide enough, and none of them
is narrower than it was. -/
structure Fitted (b : Block) (k : Nat) (added c : Block) : Prop where
  encodable : ∀ i ∈ c, i.Encodable
  resized : List.Forall₂ Instruction.Resized (b.spliced k 0 added) c
  widened : Within c (b.spliced k 0 added)
  leadsTo : ∀ j m, b.LeadsTo j m →
    c.LeadsTo (carry k 0 added.length j) (carry k 0 added.length m)

namespace Fitted

variable {c : Block}

theorem size_le (h : b.Fitted k added c) : size (b.spliced k 0 added) ≤ c.size :=
  size_le_of_within h.widened

/-- The code is a layout of the splice. -/
theorem laid (h : b.Fitted k added c) : Laid true b k 0 added c where
  resized := h.resized
  toward := before_true.2 h.widened
  leadsTo j m _ hjm := h.leadsTo j m hjm
  stops i hi _ := by
    rw [toward_true]
    exact_mod_cast (h.encodable i hi).fits
  bounded i hi := ⟨(h.encodable i hi).one_le_width, (h.encodable i hi).width_le⟩

end Fitted

/-- With jumps that are as wide as can be the block has its place. -/
theorem exists_fitted (hb : b.Valid) (ha : added.Addable) (hk : k ≤ b.length)
    (hroom : b.fullSize + added.size < limit32) :
    ∃ c, b.Fitted k added c ∧ c.size ≤ b.fullSize + added.size := by
  have hfits : ∀ s ∈ b.splicedSlots k 0 added, s.Fits := fun s hs =>
    fits_of_mem_splicedSlots hb.encodable ha.encodable hs
  have hfull := fullSize_spliced_le b k 0 ha
  have hceiling : ceiling true (b.spliced k 0 added) < limit32 := hfull.trans_lt hroom
  have hl := limit_pinned hb ha hk (b.spares_zero k) hceiling
  have hwidth := fun s => @width_of_mem_pinned true _ (b.spliceShift k 0 added) s hfits
  -- From here on all that matters about the widest layout is that it is a limit.
  generalize pinned (b.spliceShift k 0 added) (extreme true) (b.splicedSlots k 0 added) = bound
    at hl hwidth
  have hfollows := hl.leans.imp fun _ _ hs => hs.follows
  have hboundFits : ∀ s ∈ bound, s.Fits := by
    intro s' hs'
    obtain ⟨s, hs, hfollow⟩ := exists_of_mem_right hfollows hs'
    refine ⟨?_, (hwidth s' hs').1⟩
    by_cases hjumps : ∃ o t, s.Jumps o t
    · obtain ⟨o, t, hj⟩ := hjumps
      have hstop := hl.stops s' hs' o t (hfollow.jumps_iff.2 hj)
      rw [toward_true] at hstop
      exact_mod_cast hstop
    · rw [hfollow.eq_of_not_jumps fun o t hj => hjumps ⟨o, t, hj⟩]
      exact (hfits s hs).minimalWidth_le
  have hsize := size_le_ceiling hl.leans fun s hs => (hwidth s hs).1
  rw [instructionsOf_splicedSlots] at hsize
  refine ⟨instructionsOf bound, ⟨encodable_of_follows hb.encodable ha.encodable hfollows hboundFits,
    resized_instructionsOf hfollows, ?_, fun j m hjm => ?_⟩, hsize.trans hfull⟩
  · rw [← instructionsOf_splicedSlots]
    exact within_of_growing hl.leans
  · obtain ⟨hm, i, hi, hjump, -⟩ := id hjm
    obtain ⟨i', hi', hflow, hlanding⟩ := landing_eq hb.solid hk hfollows hl.settled hi hjm
      (stays_zero k j) (b.spares_zero k j m (stays_zero k j) hjm)
    refine ⟨?_, i', hi', hflow ▸ hjump, (target?_eq_some_iff hi' (hflow ▸ hjump)).2 ⟨hlanding, ?_⟩⟩
    · rw [length_instructionsOf_of_follows hk hfollows]
      unfold carry
      split <;> omega
    · exact (start_le_size _ _).trans_lt (hsize.trans_lt hceiling)

theorem size_le_size_spliced (b : Block) (k : Nat) (added : Block) :
    added.size ≤ size (b.spliced k 0 added) := by
  rw [spliced, size_append, size_append]
  omega

theorem size_le_size_spliced_zero (b : Block) (k : Nat) (added : Block) :
    b.size ≤ size (b.spliced k 0 added) := by
  rw [spliced, size_append, size_append, Nat.add_zero, Nat.add_right_comm, ← size_append,
    List.take_append_drop]
  exact Nat.le_add_right _ _

/-- A splice makes the code longer. -/
theorem growing_of_insertion (b : Block) (k : Nat) (hpos : 0 < added.size) :
    decide (0 < (b.spliceShift k 0 added).delta) = true := by
  rw [spliceShift_zero, decide_eq_true_eq]
  exact Int.natCast_pos.2 hpos

/-- The changes of a splice are the splice itself and jumps that get wider. -/
theorem exists_resizing_of_insertion {out : List Slot} {shifts : List Shift}
    (hb : ∀ i ∈ b, i.Encodable) (ha : ∀ i ∈ added, (Slot.fresh i).Fits) (hk : k ≤ b.length)
    (hpos : 0 < added.size)
    (h : relocate (b.spliceShift k 0 added) (b.splicedSlots k 0 added) = .ok (out, shifts)) :
    ∃ rest, shifts = b.spliceShift k 0 added :: rest ∧
      ∀ c ∈ rest, Resizing true (b.splicedSlots k 0 added) c := by
  have hshifts := shifts_of_relocate (fun s hs => atOrigin_of_mem_splicedSlots hk hs)
    (fun s hs => fits_of_mem_splicedSlots_of_fits hb ha hs) h
  rwa [growing_of_insertion b k hpos] at hshifts

/-- No instruction is narrower than it was when bytes are spliced in. -/
theorem within_of_relocated {out : List Slot} {shifts : List Shift} (hpos : 0 < added.size)
    (h : Relocated (b.spliceShift k 0 added) (b.splicedSlots k 0 added) out shifts) :
    Within (instructionsOf out) (b.spliced k 0 added) := by
  have hleans := h.leans
  rw [growing_of_insertion b k hpos] at hleans
  rw [← instructionsOf_splicedSlots]
  exact within_of_growing hleans

/-- What relocation makes, once the targets have been checked, is a layout of the splice. -/
theorem laid_of_relocated {out : List Slot} {shifts : List Shift} (hb : b.Solid)
    (hk : k ≤ b.length) (hpos : 0 < added.size)
    (h : Relocated (b.spliceShift k 0 added) (b.splicedSlots k 0 added) out shifts)
    (hclosed : Closed (instructionsOf out)) : Laid true b k 0 added (instructionsOf out) where
  resized := resized_instructionsOf (h.leans.imp fun _ _ hs => hs.follows)
  toward := before_true.2 (within_of_relocated hpos h)
  leadsTo j m hj hjm := leadsTo_of_relocated hb hk (b.spares_zero k) h hclosed hj hjm
  stops i hi _ := by
    obtain ⟨s, hs, rfl⟩ := List.mem_map.1 hi
    rw [toward_true]
    exact_mod_cast (h.fits s hs).minimalWidth_le
  bounded i hi := by
    obtain ⟨s, hs, rfl⟩ := List.mem_map.1 hi
    exact ⟨(one_le_minimalWidth _).trans (h.fits s hs).minimalWidth_le, (h.fits s hs).width_le⟩

/-- A target keeps its place in the code when a block is spliced in. -/
theorem LeadsTo.carry_lt {j m : Nat} (h : b.LeadsTo j m) (k : Nat) (added : Block) :
    carry k 0 added.length m < b.length - 0 + added.length := by
  have hm := h.1
  unfold carry
  split <;> omega

end Block

section Insert

variable {code : List UInt8} {b added : Block} {offset : Nat} {e : Edit}

theorem insertAt_eq_ok_iff :
    insertAt code added offset = .ok e ↔ ∃ b d, Block.ofCode code = .ok b ∧
      b.draftInsert added offset = .ok d ∧ d.finish = .ok e := by
  simp only [insertAt, Block.insert, bind_eq_ok_iff]
  constructor
  · rintro ⟨b, hb, d, hd, he⟩
    exact ⟨b, d, hb, hd, he⟩
  · rintro ⟨b, d, hb, hd, he⟩
    exact ⟨b, hb, d, hd, he⟩

/-- A splice of any instructions that succeeds, with the relocation and the checks behind it. -/
theorem exists_adapted_of_insertAt (h : insertAt code added offset = .ok e) :
    ∃ b k out, Block.decode code = .ok b ∧ k < b.length ∧ b.start k = offset ∧
      (∀ i ∈ added, i.flow = .other) ∧
      relocate (b.spliceShift k 0 added) (b.splicedSlots k 0 added) = .ok (out, e.shifts) ∧
      Adapted (b.spliceShift k 0 added) (b.splicedSlots k 0 added) out e.shifts ∧
      checkLayout e.shifts out = .ok () ∧ Block.Closed (instructionsOf out) ∧
      e.code = Block.encode (instructionsOf out) := by
  obtain ⟨b, d, hcode, hdraft, hfinish⟩ := insertAt_eq_ok_iff.1 h
  obtain ⟨hdecode, -⟩ := Block.ofCode_eq_ok_iff.1 hcode
  have hencodable := Block.encodable_of_decode hdecode
  obtain ⟨k, hk, hstart, hother, -, rfl⟩ :=
    (Block.draftInsert_eq_ok_iff (Block.solid_of_encodable hencodable)).1 hdraft
  obtain ⟨out, hrelocate, hlayout, hclosed, hout, -⟩ := Block.finish_eq_ok_iff.1 hfinish
  exact ⟨b, k, out, hdecode, hk, hstart, hother, hrelocate,
    Block.adapted_of_relocate hencodable hk.le hrelocate, hlayout, hclosed, hout⟩

/-- The size of a block that is put in is below half of the limit. -/
theorem size_lt_of_insertAt (h : insertAt code added offset = .ok e) :
    added.size < limit32 / 2 := by
  obtain ⟨b, d, hcode, hdraft, -⟩ := insertAt_eq_ok_iff.1 h
  have hsolid := Block.solid_of_encodable
    (Block.encodable_of_decode (Block.ofCode_eq_ok_iff.1 hcode).1)
  obtain ⟨k, -, -, -, hsize, -⟩ := (Block.draftInsert_eq_ok_iff hsolid).1 hdraft
  exact hsize

/-- A splice that succeeds, with the relocation behind it. -/
theorem exists_relocated_of_fits (ha : ∀ i ∈ added, (Slot.fresh i).Fits)
    (h : insertAt code added offset = .ok e) :
    ∃ b k out, Block.decode code = .ok b ∧ k < b.length ∧ b.start k = offset ∧
      (∀ i ∈ added, i.flow = .other) ∧
      relocate (b.spliceShift k 0 added) (b.splicedSlots k 0 added) = .ok (out, e.shifts) ∧
      Relocated (b.spliceShift k 0 added) (b.splicedSlots k 0 added) out e.shifts ∧
      Block.Closed (instructionsOf out) ∧ e.code = Block.encode (instructionsOf out) := by
  obtain ⟨b, k, out, hdecode, hk, hstart, hother, hrelocate, -, -, hclosed, hout⟩ :=
    exists_adapted_of_insertAt h
  exact ⟨b, k, out, hdecode, hk, hstart, hother, hrelocate,
    Block.relocated_of_relocate (Block.encodable_of_decode hdecode) ha hk.le hrelocate, hclosed, hout⟩

theorem exists_relocated_of_insertAt (ha : ∀ i ∈ added, i.Encodable)
    (h : insertAt code added offset = .ok e) :
    ∃ b k out, Block.decode code = .ok b ∧ k < b.length ∧ b.start k = offset ∧ added.Addable ∧
      relocate (b.spliceShift k 0 added) (b.splicedSlots k 0 added) = .ok (out, e.shifts) ∧
      Relocated (b.spliceShift k 0 added) (b.splicedSlots k 0 added) out e.shifts ∧
      Block.Closed (instructionsOf out) ∧ e.code = Block.encode (instructionsOf out) := by
  obtain ⟨b, k, out, hdecode, hk, hstart, hother, hrest⟩ :=
    exists_relocated_of_fits (fun i hi => (ha i hi).fits_fresh) h
  exact ⟨b, k, out, hdecode, hk, hstart, ⟨ha, hother⟩, hrest⟩

/-- A splice that succeeds makes a layout. -/
theorem exists_laid_of_insertAt (hdecode : Block.decode code = .ok b) (hb : b.Valid)
    (ha : added.Placeable) (hpos : 0 < added.size) {k : Nat} (hk : k < b.length)
    (h : insertAt code added (b.start k) = .ok e) :
    ∃ out, relocate (b.spliceShift k 0 added) (b.splicedSlots k 0 added) = .ok (out, e.shifts) ∧
      Relocated (b.spliceShift k 0 added) (b.splicedSlots k 0 added) out e.shifts ∧
      Block.Laid true b k 0 added (instructionsOf out) ∧
      e.code = Block.encode (instructionsOf out) := by
  obtain ⟨b', k', out, hdecode', hk', hstart, -, hrelocate, hrelocated, hclosed, hcode⟩ :=
    exists_relocated_of_fits ha.fits h
  rw [hdecode] at hdecode'
  cases hdecode'
  obtain rfl := Block.start_inj hb.solid hk'.le hk.le hstart
  exact ⟨out, hrelocate, hrelocated, Block.laid_of_relocated hb.solid hk.le hpos hrelocated hclosed,
    hcode⟩

/-- A splice that succeeds makes of valid code what it has to make. -/
theorem exists_out_of_insertAt (hdecode : Block.decode code = .ok b) (hb : b.Valid)
    (ha : ∀ i ∈ added, i.Encodable) (h : insertAt code added offset = .ok e) :
    ∃ k out, k < b.length ∧ b.start k = offset ∧ added.Addable ∧
      relocate (b.spliceShift k 0 added) (b.splicedSlots k 0 added) = .ok (out, e.shifts) ∧
      Relocated (b.spliceShift k 0 added) (b.splicedSlots k 0 added) out e.shifts ∧
      e.code = Block.encode (instructionsOf out) ∧
      b.Spliced k 0 added (instructionsOf out) e.shifts := by
  obtain ⟨b', k, out, hdecode', hk, hstart, hadd, hrelocate, hrelocated, hclosed, hout⟩ :=
    exists_relocated_of_insertAt ha h
  rw [hdecode] at hdecode'
  cases hdecode'
  exact ⟨k, out, hk, hstart, hadd, hrelocate, hrelocated, hout,
    Block.spliced_of_relocated hb hadd hk.le (b.spares_zero k) hrelocated hclosed⟩

/-- The code grows when bytes are spliced in. -/
theorem length_le_of_insertAt (ha : ∀ i ∈ added, i.Encodable) (hpos : 0 < added.size)
    (h : insertAt code added offset = .ok e) : code.length ≤ e.code.length := by
  obtain ⟨b, k, out, hdecode, hk, -, -, -, hrelocated, -, hout⟩ := exists_relocated_of_insertAt ha h
  have hencodable := Block.encodable_of_follows (Block.encodable_of_decode hdecode) ha
    (hrelocated.leans.imp fun _ _ hleans => hleans.follows) hrelocated.fits
  have hplain := Block.size_le_size_spliced_zero b k added
  have hgrown := Block.size_le_of_within (Block.within_of_relocated hpos hrelocated)
  rw [hout, Block.length_encode_of_encodable hencodable, ← Block.size_of_decode hdecode]
  exact hplain.trans hgrown

/-- Bytes can be spliced in wherever the code with them in place can be laid out. Relocation is
nowhere wider than that layout. -/
theorem exists_insertAt_of_laid {c : Block} {k : Nat} (hdecode : Block.decode code = .ok b)
    (hb : b.Valid) (ha : added.Placeable) (hpos : 0 < added.size)
    (hadded : added.size < limit32 / 2) (hk : k < b.length) (hc : Block.Laid true b k 0 added c)
    (hsize : c.size < limit32) :
    ∃ e, insertAt code added (b.start k) = .ok e ∧ e.code.length ≤ c.size := by
  have hgrowing := Block.growing_of_insertion b k hpos
  have hwithin : ∀ out shifts, relocate (b.spliceShift k 0 added) (b.splicedSlots k 0 added) =
      .ok (out, shifts) → Block.size (instructionsOf out) ≤ c.size := fun out shifts hrelocate =>
    Block.size_le_of_within (Block.before_true.1
      (hc.toward_of_relocate hb ha hk.le (b.spares_zero k) hgrowing hrelocate))
  have hl := hc.limit hb ha hk.le (b.spares_zero k)
  rw [← hgrowing] at hl
  obtain ⟨e, he⟩ := Block.exists_finish_of_limit [] hb ha hk.le (b.spares_zero k) hl
    (fun out shifts hrelocate => (hwithin out shifts hrelocate).trans_lt hsize)
    fun j m _ hjm => hjm.carry_lt k added
  refine ⟨e, insertAt_eq_ok_iff.2 ⟨b, _, Block.ofCode_eq_ok_iff.2 ⟨hdecode, hb.steady⟩,
    (Block.draftInsert_eq_ok_iff hb.solid).2 ⟨k, hk, rfl, ha.flow_eq, hadded, rfl⟩, he⟩, ?_⟩
  obtain ⟨out, hrelocate, -, -, hcode, -⟩ := Block.finish_eq_ok_iff.1 he
  have hrelocated := Block.relocated_of_relocate hb.encodable ha.fits hk.le hrelocate
  rw [hcode, Block.length_encode_of_relocated hrelocated]
  exact hwithin out e.shifts hrelocate

/-- A splice gives code below the bound of sizes exactly when there is a layout below it. -/
theorem exists_insertAt_iff {k : Nat} (hdecode : Block.decode code = .ok b) (hb : b.Valid)
    (ha : added.Placeable) (hpos : 0 < added.size) (hk : k < b.length) :
    (∃ e, insertAt code added (b.start k) = .ok e ∧ e.code.length < limit32 / 2) ↔
      ∃ c, Block.Laid true b k 0 added c ∧ c.size < limit32 / 2 := by
  constructor
  · rintro ⟨e, h, hsmall⟩
    obtain ⟨out, -, hrelocated, hlaid, hcode⟩ := exists_laid_of_insertAt hdecode hb ha hpos hk h
    refine ⟨instructionsOf out, hlaid, ?_⟩
    rwa [hcode, Block.length_encode_of_relocated hrelocated] at hsmall
  · rintro ⟨c, hc, hsmall⟩
    have hadded := (Block.size_le_size_spliced b k added).trans
      (Block.size_le_of_within (Block.before_true.1 hc.toward))
    obtain ⟨e, h, hle⟩ := exists_insertAt_of_laid hdecode hb ha hpos (hadded.trans_lt hsmall) hk hc
      (hsmall.trans (by decide))
    exact ⟨e, h, hle.trans_lt hsmall⟩

/-- Code with a block in place can be made wherever it can be laid out. -/
theorem exists_insertAt {c : Block} {k : Nat} (hdecode : Block.decode code = .ok b) (hb : b.Valid)
    (ha : added.Addable) (hadded : added.size < limit32 / 2) (hk : k < b.length)
    (hc : b.Fitted k added c) (hsize : c.size < limit32) :
    ∃ e, insertAt code added (b.start k) = .ok e := by
  by_cases hpos : 0 < added.size
  · obtain ⟨e, he, -⟩ :=
      exists_insertAt_of_laid hdecode hb ha.placeable hpos hadded hk hc.laid hsize
    exact ⟨e, he⟩
  · -- A block without bytes widens nothing.
    have hceiling : Block.ceiling (decide (0 < (b.spliceShift k 0 added).delta))
        (b.spliced k 0 added) < limit32 := by
      rw [Block.spliceShift_zero, decide_eq_false (by simpa [Shift.before] using hpos)]
      exact hc.size_le.trans_lt hsize
    obtain ⟨e, he⟩ := Block.exists_finish [] hb ha hk.le (b.spares_zero k) hceiling
      fun j m _ hjm => hjm.carry_lt k added
    exact ⟨e, insertAt_eq_ok_iff.2 ⟨b, _, Block.ofCode_eq_ok_iff.2 ⟨hdecode, hb.steady⟩,
      (Block.draftInsert_eq_ok_iff hb.solid).2 ⟨k, hk, rfl, ha.flow_eq, hadded, rfl⟩, he⟩⟩

/-- Valid code with room takes a block exactly in front of an instruction. -/
theorem exists_insertAt_iff_mem_offsets (hdecode : Block.decode code = .ok b) (hb : b.Valid)
    (hadded : added.Addable)
    (hroom : ∀ k < b.length, b.start k = offset → ∃ c, b.Fitted k added c ∧ c.size < limit32 / 2) :
    (∃ e, insertAt code added offset = .ok e) ↔ offset ∈ b.offsets := by
  constructor
  · rintro ⟨e, he⟩
    obtain ⟨k, -, hk, hstart, -⟩ := exists_out_of_insertAt hdecode hb hadded.encodable he
    exact Block.mem_offsets.2 ⟨k, hk, hstart⟩
  · intro hmem
    obtain ⟨k, hk, rfl⟩ := Block.mem_offsets.1 hmem
    obtain ⟨c, hc, hsize⟩ := hroom k hk rfl
    have hsmall := (Block.size_le_size_spliced b k added).trans hc.size_le
    exact exists_insertAt hdecode hb hadded (hsmall.trans_lt hsize) hk hc
      (hsize.trans (by decide))

/-- Splicing into valid code succeeds exactly in front of an instruction, and gives the code with
the block in place, as long as that code, with its jumps as wide as they have to be, can be laid out
below the bound of sizes. -/
theorem insertAt_spec (hdecode : Block.decode code = .ok b)
    (hsteady : ∀ i ∈ b, i.flow ≠ .suspension) (hclosed : b.Closed) (hadded : added.Addable)
    (hroom : ∀ k < b.length, b.start k = offset → ∃ c, b.Fitted k added c ∧ c.size < limit32 / 2) :
    ((∃ e, insertAt code added offset = .ok e) ↔ offset ∈ b.offsets) ∧
      ∀ e, insertAt code added offset = .ok e → ∃ k c, k < b.length ∧ b.start k = offset ∧
        Block.decode e.code = .ok c ∧ b.Spliced k 0 added c e.shifts ∧
        (e.code.length : Int) = code.length + e.sizeDelta := by
  have hb : b.Valid := ⟨Block.encodable_of_decode hdecode, hsteady, hclosed⟩
  refine ⟨exists_insertAt_iff_mem_offsets hdecode hb hadded hroom, fun e he => ?_⟩
  obtain ⟨k, out, hk, hstart, -, -, -, hcode, hspliced⟩ :=
    exists_out_of_insertAt hdecode hb hadded.encodable he
  have hencodable := hspliced.valid.encodable
  refine ⟨k, instructionsOf out, hk, hstart, ?_, hspliced, ?_⟩
  · rw [hcode, Block.decode_encode hencodable]
  · rw [hcode, Block.length_encode_of_encodable hencodable, hspliced.size_eq,
      Block.size_of_decode hdecode, Edit.sizeDelta]

/-- A block can be spliced in front of the target of a jump. -/
theorem exists_insertAt_jump_target : ∃ e,
    insertAt (Block.encode [⟨.jumpAbsolute, 2, 1⟩, .bare .returnValue]) [.bare .nop] 2 = .ok e := by
  have hencodable : ∀ i ∈ ([⟨.jumpAbsolute, 2, 1⟩, .bare .returnValue] : Block), i.Encodable := by
    decide
  have hb : Block.Valid [⟨.jumpAbsolute, 2, 1⟩, .bare .returnValue] :=
    ⟨hencodable, by decide, by decide⟩
  have hadded : Block.Addable [.bare .nop] := by decide
  refine (insertAt_spec (Block.decode_encode hencodable) hb.steady hb.closed hadded
    fun k hk _ => ?_).1.2 (by decide)
  obtain ⟨c, hc, hsize⟩ := Block.exists_fitted hb hadded hk.le (by decide)
  exact ⟨c, hc, hsize.trans_lt (by decide)⟩

/-- Whether there is room can be told from the code that is there, in which no jump gets more than
four times as wide. -/
theorem exists_insertAt_iff_of_length (hdecode : Block.decode code = .ok b)
    (hsteady : ∀ i ∈ b, i.flow ≠ .suspension) (hclosed : b.Closed) (hadded : added.Addable)
    (hlength : maximalWidth * code.length + added.size < limit32 / 2) :
    (∃ e, insertAt code added offset = .ok e) ↔ offset ∈ b.offsets := by
  have hb : b.Valid := ⟨Block.encodable_of_decode hdecode, hsteady, hclosed⟩
  have hfull := Block.fullSize_le_of_solid hb.solid
  rw [Block.size_of_decode hdecode] at hfull
  refine exists_insertAt_iff_mem_offsets hdecode hb hadded fun k hk _ => ?_
  obtain ⟨c, hc, hsize⟩ := Block.exists_fitted hb hadded hk.le (by omega)
  exact ⟨c, hc, by omega⟩

end Insert

end Tripwire
