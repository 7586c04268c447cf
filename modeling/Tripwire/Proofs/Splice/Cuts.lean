import Tripwire.Proofs.LineTable.Follow
import Tripwire.Proofs.Splice.Faithful

/-!
# Line tables that follow a splice

The changes of a splice move the cuts of a line table as the splice moves the
instructions, except that a cut at the splice stays in front of what is put in
there: new instructions belong to the line of the instruction they are put in
front of.

* `carryCut`: the index to which a cut in front of an instruction goes;
* `Block.drift_of_relocated`: the offset to which it goes;
* `LineTable.Aligned`: a table whose cuts are at instructions;
* `Block.recut_of_insertion`, `Block.exists_followed_insertion`: the table that follows an
  insertion;
* `Block.recut_of_removal`, `Block.exists_followed_removal`: the table that follows a removal.
-/

namespace Tripwire

/-- The index after a splice of the instruction in front of which a cut at index `m` lies. -/
def carryCut (k count length m : Nat) : Nat := if m ≤ k then m else m - count + length

theorem carryCut_of_le {k m : Nat} (count length : Nat) (h : m ≤ k) :
    carryCut k count length m = m := if_pos h

theorem carryCut_of_lt {k m : Nat} (count length : Nat) (h : k < m) :
    carryCut k count length m = m - count + length := if_neg (Nat.not_le_of_lt h)

/-- The table covers the block, and its cuts lie in front of instructions or at the end. -/
structure LineTable.Aligned (t : LineTable) (b : Block) : Prop where
  size_eq : t.size = b.size
  cuts : ∀ q ∈ t.cuts, ∃ m ≤ b.length, b.start m = q

theorem LineTable.aligned_of_entries {t : LineTable} {b : Block} (hsize : t.size = b.size)
    (hlimit : t.size < limit32) (h : ∀ e ∈ t.entries, e.start ∈ b.offsets) : t.Aligned b where
  size_eq := hsize
  cuts q hq := by
    rcases LineTable.eq_size_or_exists_entry hlimit hq with rfl | ⟨e, he, rfl⟩
    · exact ⟨b.length, le_rfl, by rw [Block.start_length, hsize]⟩
    · obtain ⟨m, hm, heq⟩ := Block.mem_offsets.1 (h e he)
      exact ⟨m, hm.le, heq⟩

namespace Block

variable {b added : Block} {out : List Slot} {k count : Nat} {shifts : List Shift}

theorem lineOffset_spliceShift (h : count = 0 ∨ added = []) :
    (b.spliceShift k count added).lineOffset = start b k := by
  have hmono : start b k ≤ start b (k + count) := start_mono b (Nat.le_add_right _ _)
  have hline : ∀ offset delta, (Shift.before offset delta).lineOffset =
      if delta < 0 then offset - delta.natAbs else offset := fun _ _ => rfl
  rcases h with rfl | rfl
  · rw [spliceShift, hline, if_neg (by rw [Nat.add_zero]; omega), Nat.add_zero]
  · rw [spliceShift, hline, size_nil]
    rcases hmono.eq_or_lt with heq | hlt
    · rw [if_neg (by omega), heq]
    · rw [if_pos (by omega)]
      omega

/-- Where the changes of a relocation move a cut. -/
theorem drift_of_relocated (hb : b.Solid) (hk : k + count ≤ b.length)
    (hkind : count = 0 ∨ added = [])
    (h : Relocated (b.spliceShift k count added) (b.splicedSlots k count added) out shifts)
    (hshifts : ∃ rest, shifts = b.spliceShift k count added :: rest ∧
      ∀ c ∈ rest, c.placement = .within)
    {m : Nat} (hm : m ≤ b.length) (hmk : m ≤ k ∨ k + count ≤ m) :
    Shift.drift shifts (start b m) =
      start (instructionsOf out) (carryCut k count added.length m) := by
  have hfollows := h.leans.imp fun _ _ hleans => hleans.follows
  obtain ⟨rest, rfl, hrest⟩ := hshifts
  have hline : (b.spliceShift k count added).lineOffset = start b k := lineOffset_spliceShift hkind
  have htally := h.tally_eq (Shift.ahead (start b m))
  rw [Shift.tally_cons, Shift.tally_singleton] at htally
  have hfilter : rest.filter (fun s => s.lineOffset < start b m) =
      rest.filter fun s => Shift.ahead (start b m) s.placement s.offset := by
    refine List.filter_congr fun c hc => ?_
    rw [Shift.lineOffset, hrest c hc]
    rfl
  have hrestTotal : Shift.total (rest.filter fun s => s.lineOffset < start b m) =
      swell (Shift.ahead (start b m)) out := by
    rw [hfilter]
    exact Int.add_left_cancel htally
  rw [Shift.drift, List.filter_cons, hline, carryCut]
  by_cases hfront : m ≤ k
  · have hmono := start_mono b hfront
    rw [if_neg (by simpa using hmono), if_pos hfront, hrestTotal, start_front hb hk hfollows hfront]
  · have hlt : start b k < start b m := (start_lt_start_iff hb hm).2 (by omega)
    rw [if_pos (by simpa using hlt), if_neg hfront, Shift.total_cons, hrestTotal,
      start_back hb hfollows (by omega) hm]
    omega

/-- A change of width stands at an instruction that stays. -/
theorem exists_start_of_resizing {growing : Bool} {c : Shift} (hk : k + count ≤ b.length)
    (hc : Resizing growing (b.splicedSlots k count added) c) :
    ∃ j < b.length, c.lineOffset = start b j ∧ Stays k count j := by
  obtain ⟨hplacement, -, slot, hslot, o, u, hj, hoffset⟩ := hc
  obtain ⟨l, hl⟩ := List.mem_iff_getElem?.1 hslot
  rcases exists_of_getElem?_splicedSlots hk hl with ⟨i, -, rfl⟩ | ⟨j, i, hstay, -, hi, rfl⟩
  · cases hj.origin_eq
  · cases hj.origin_eq
    obtain ⟨hjlen, -⟩ := List.getElem?_eq_some_iff.1 hi
    refine ⟨j, hjlen, ?_, hstay⟩
    rw [Shift.lineOffset, hplacement]
    exact hoffset

section Insertion

variable {t t' : LineTable} {g : Nat → Nat}

theorem drift_of_insertion (hb : b.Solid) (hk : k < b.length)
    (h : Relocated (b.spliceShift k 0 added) (b.splicedSlots k 0 added) out shifts)
    (hshifts : ∃ rest, shifts = b.spliceShift k 0 added :: rest ∧
      ∀ c ∈ rest, Resizing true (b.splicedSlots k 0 added) c) {m : Nat} (hm : m ≤ b.length) :
    Shift.drift shifts (start b m) =
      start (instructionsOf out) (carryCut k 0 added.length m) := by
  obtain ⟨rest, hrest, hall⟩ := hshifts
  exact drift_of_relocated hb hk.le (.inl rfl) h ⟨rest, hrest, fun c hc => (hall c hc).placement_eq⟩
    hm (by omega)

/-- The changes of an insertion only add bytes. -/
theorem nonneg_of_insertion (hshifts : ∃ rest, shifts = b.spliceShift k 0 added :: rest ∧
    ∀ c ∈ rest, Resizing true (b.splicedSlots k 0 added) c) : ∀ s ∈ shifts, 0 ≤ s.delta := by
  obtain ⟨rest, rfl, hall⟩ := hshifts
  intro s hs
  rcases List.mem_cons.1 hs with rfl | hs
  · simp [spliceShift, Shift.before]
  · exact (toward_true).1 (hall s hs).along

/-- The changes of an insertion are made inside the code. -/
theorem lineOffset_lt_of_insertion (hb : b.Solid) (hk : k < b.length)
    (hshifts : ∃ rest, shifts = b.spliceShift k 0 added :: rest ∧
      ∀ c ∈ rest, Resizing true (b.splicedSlots k 0 added) c) :
    ∀ s ∈ shifts, s.lineOffset < b.size := by
  obtain ⟨rest, rfl, hall⟩ := hshifts
  intro s hs
  rw [← start_length b]
  rcases List.mem_cons.1 hs with rfl | hs
  · rw [lineOffset_spliceShift (.inl rfl)]
    exact start_lt_start hb hk hk
  · obtain ⟨j, hj, hline, -⟩ := exists_start_of_resizing hk.le (hall s hs)
    rw [hline]
    exact start_lt_start hb hj hj

/-- The end of the code moves to the end of the new code. -/
theorem drift_size_of_insertion (hb : b.Solid) (hk : k < b.length)
    (h : Relocated (b.spliceShift k 0 added) (b.splicedSlots k 0 added) out shifts)
    (hshifts : ∃ rest, shifts = b.spliceShift k 0 added :: rest ∧
      ∀ c ∈ rest, Resizing true (b.splicedSlots k 0 added) c) :
    Shift.drift shifts b.size = size (instructionsOf out) := by
  have hlength := length_instructionsOf_of_follows hk.le
    (h.leans.imp fun _ _ hleans => hleans.follows)
  rw [← start_length b, drift_of_insertion hb hk h hshifts le_rfl, carryCut_of_lt _ _ hk,
    start_of_length_le hlength.le]

/-- The changes of an insertion are orderly. -/
theorem orderly_of_insertion (hb : b.Solid) (hk : k < b.length) (ht : t.Aligned b)
    (h : Relocated (b.spliceShift k 0 added) (b.splicedSlots k 0 added) out shifts)
    (hshifts : ∃ rest, shifts = b.spliceShift k 0 added :: rest ∧
      ∀ c ∈ rest, Resizing true (b.splicedSlots k 0 added) c)
    (hsize : size (instructionsOf out) < limit32) :
    t.Orderly (LineTable.fallingOrder shifts) := by
  refine LineTable.orderly_of_growing (nonneg_of_insertion hshifts) ?_
  rw [ht.size_eq, drift_size_of_insertion hb hk h hshifts]
  exact_mod_cast hsize

/-- The table that follows an insertion has its cuts moved with the instructions. -/
theorem recut_of_insertion (hb : b.Solid) (hk : k < b.length) (ht : t.Aligned b)
    (h : Relocated (b.spliceShift k 0 added) (b.splicedSlots k 0 added) out shifts)
    (hshifts : ∃ rest, shifts = b.spliceShift k 0 added :: rest ∧
      ∀ c ∈ rest, Resizing true (b.splicedSlots k 0 added) c)
    (hsize : size (instructionsOf out) < limit32) (hf : t.followed shifts = .ok t')
    (hg : ∀ m ≤ b.length, g (start b m) =
      start (instructionsOf out) (carryCut k 0 added.length m)) :
    t' = t.recut g ∧ t.Keeps g := by
  have horderly := orderly_of_insertion hb hk ht h hshifts hsize
  have hcuts : ∀ q ∈ t.cuts, (g q : Int) = Shift.drift shifts q := by
    intro q hq
    obtain ⟨m, hm, rfl⟩ := ht.cuts q hq
    rw [drift_of_insertion hb hk h hshifts hm, hg m hm]
  exact ⟨LineTable.recut_of_followed horderly hf hcuts, LineTable.keeps_of_orderly horderly hcuts⟩

/-- A table can follow an insertion. -/
theorem exists_followed_insertion (hb : b.Solid) (hk : k < b.length) (ht : t.Aligned b)
    (h : Relocated (b.spliceShift k 0 added) (b.splicedSlots k 0 added) out shifts)
    (hshifts : ∃ rest, shifts = b.spliceShift k 0 added :: rest ∧
      ∀ c ∈ rest, Resizing true (b.splicedSlots k 0 added) c)
    (hsize : size (instructionsOf out) < limit32) : ∃ t', t.followed shifts = .ok t' := by
  refine LineTable.exists_followed (orderly_of_insertion hb hk ht h hshifts hsize) ?_
  rw [ht.size_eq]
  exact lineOffset_lt_of_insertion hb hk hshifts

end Insertion

/-- The changes whose line offsets lie between two offsets. -/
theorem total_between (shifts : List Shift) {p q : Nat} (hpq : p ≤ q) :
    Shift.total (shifts.filter fun s => p ≤ s.lineOffset ∧ s.lineOffset < q) =
      (Shift.drift shifts q - q) - (Shift.drift shifts p - p) := by
  have hcons : ∀ (f : Shift → Bool) (s : Shift) (rest : List Shift),
      Shift.total ((s :: rest).filter f) =
        (if f s then s.delta else 0) + Shift.total (rest.filter f) := by
    intro f s rest
    by_cases h : f s = true <;> simp [h]
  unfold Shift.drift
  induction shifts with
  | nil => simp
  | cons s shifts ih =>
    rw [hcons, hcons, hcons]
    simp only [decide_eq_true_eq]
    by_cases hp : s.lineOffset < p
    · rw [if_neg (by omega), if_pos (by omega), if_pos hp]
      omega
    · by_cases hq : s.lineOffset < q
      · rw [if_pos (by omega), if_pos hq, if_neg hp]
        omega
      · rw [if_neg (by omega), if_neg hq, if_neg hp]
        omega

section Removal

variable {t t' : LineTable} {g : Nat → Nat}

theorem drift_of_removal (hb : b.Solid) (hstop : k + count ≤ b.length)
    (h : Relocated (b.spliceShift k count []) (b.splicedSlots k count []) out shifts)
    (hshifts : ∃ rest, shifts = b.spliceShift k count [] :: rest ∧
      ∀ c ∈ rest, Resizing false (b.splicedSlots k count []) c)
    {m : Nat} (hm : m ≤ b.length) (hmk : m ≤ k ∨ k + count ≤ m) :
    Shift.drift shifts (start b m) = start (instructionsOf out) (carryCut k count 0 m) := by
  obtain ⟨rest, hrest, hall⟩ := hshifts
  exact drift_of_relocated hb hstop (.inr rfl) h
    ⟨rest, hrest, fun c hc => (hall c hc).placement_eq⟩ hm hmk

/-- The changes of a removal only take bytes out. -/
theorem nonpos_of_removal (hshifts : ∃ rest, shifts = b.spliceShift k count [] :: rest ∧
    ∀ c ∈ rest, Resizing false (b.splicedSlots k count []) c) : ∀ s ∈ shifts, s.delta ≤ 0 := by
  obtain ⟨rest, rfl, hall⟩ := hshifts
  intro s hs
  rcases List.mem_cons.1 hs with rfl | hs
  · have hmono : start b k ≤ start b (k + count) := start_mono b (Nat.le_add_right _ _)
    simp only [spliceShift, Shift.before, size_nil]
    omega
  · exact (toward_false).1 (hall s hs).along

/-- Every change has the line offset of an instruction that stays, or of the start of the range. -/
theorem exists_start_of_removal (hk : k < b.length) (hstop : k + count ≤ b.length)
    (hshifts : ∃ rest, shifts = b.spliceShift k count [] :: rest ∧
      ∀ c ∈ rest, Resizing false (b.splicedSlots k count []) c) :
    ∀ s ∈ shifts, ∃ j < b.length, s.lineOffset = start b j ∧ (j ≤ k ∨ k + count ≤ j) := by
  obtain ⟨rest, rfl, hall⟩ := hshifts
  intro s hs
  rcases List.mem_cons.1 hs with rfl | hs
  · exact ⟨k, hk, lineOffset_spliceShift (.inr rfl), .inl le_rfl⟩
  · obtain ⟨j, hj, hline, hstay⟩ := exists_start_of_resizing hstop (hall s hs)
    exact ⟨j, hj, hline, hstay.imp_left le_of_lt⟩

/-- The changes of a removal are orderly when no cut lies behind the start of the range up to its
end. -/
theorem orderly_of_removal (hb : b.Valid) (hk : k < b.length) (hstop : k + count ≤ b.length)
    (ht : t.Aligned b) (hclear : ∀ m ≤ b.length, start b m ∈ t.cuts → m ≤ k ∨ k + count < m)
    (hlimit : b.size < limit32)
    (h : Relocated (b.spliceShift k count []) (b.splicedSlots k count []) out shifts)
    (hshifts : ∃ rest, shifts = b.spliceShift k count [] :: rest ∧
      ∀ c ∈ rest, Resizing false (b.splicedSlots k count []) c) :
    t.Orderly (LineTable.fallingOrder shifts) := by
  have hlen := length_instructionsOf_of_follows hstop (h.leans.imp fun _ _ hleans => hleans.follows)
  rw [List.length_nil] at hlen
  refine LineTable.orderly_of_shrinking (nonpos_of_removal hshifts) (by rwa [ht.size_eq]) ?_
  intro s hs q hq hsq
  obtain ⟨j, hj, hline, hjk⟩ := exists_start_of_removal hk hstop hshifts s hs
  obtain ⟨m, hm, rfl⟩ := ht.cuts q hq
  rw [hline] at hsq ⊢
  have hjm : j < m := (start_lt_start_iff hb.solid hm).1 hsq
  have hmk := hclear m hm hq
  have hbehind : start (instructionsOf out) (carryCut k count 0 j) <
      start (instructionsOf out) (carryCut k count 0 m) := by
    refine (start_lt_start_iff (solid_of_fits h.fits) ?_).2 ?_
    · unfold carryCut
      split <;> omega
    · unfold carryCut
      split <;> split <;> omega
  -- The changes between the two offsets are what the instructions have come closer by.
  have hj' := drift_of_removal hb.solid hstop h hshifts hj.le hjk
  have hm' := drift_of_removal hb.solid hstop h hshifts hm (by omega)
  rw [total_between shifts hsq.le]
  omega

/-- The table that follows a removal has its cuts moved with the instructions. -/
theorem recut_of_removal (hb : b.Valid) (hk : k < b.length) (hstop : k + count ≤ b.length)
    (ht : t.Aligned b) (hclear : ∀ m ≤ b.length, start b m ∈ t.cuts → m ≤ k ∨ k + count < m)
    (hlimit : b.size < limit32)
    (h : Relocated (b.spliceShift k count []) (b.splicedSlots k count []) out shifts)
    (hshifts : ∃ rest, shifts = b.spliceShift k count [] :: rest ∧
      ∀ c ∈ rest, Resizing false (b.splicedSlots k count []) c)
    (hf : t.followed shifts = .ok t')
    (hg : ∀ m ≤ b.length, m ≤ k ∨ k + count < m →
      g (start b m) = start (instructionsOf out) (carryCut k count 0 m)) :
    t' = t.recut g ∧ t.Keeps g := by
  have horderly := orderly_of_removal hb hk hstop ht hclear hlimit h hshifts
  have hcuts : ∀ q ∈ t.cuts, (g q : Int) = Shift.drift shifts q := by
    intro q hq
    obtain ⟨m, hm, rfl⟩ := ht.cuts q hq
    have hmk := hclear m hm hq
    rw [hg m hm hmk, drift_of_removal hb.solid hstop h hshifts hm (by omega)]
  exact ⟨LineTable.recut_of_followed horderly hf hcuts, LineTable.keeps_of_orderly horderly hcuts⟩

/-- A table can follow a removal whose range has no cut behind its start up to its end. -/
theorem exists_followed_removal (hb : b.Valid) (hk : k < b.length) (hstop : k + count ≤ b.length)
    (ht : t.Aligned b) (hclear : ∀ m ≤ b.length, start b m ∈ t.cuts → m ≤ k ∨ k + count < m)
    (hlimit : b.size < limit32)
    (h : Relocated (b.spliceShift k count []) (b.splicedSlots k count []) out shifts)
    (hshifts : ∃ rest, shifts = b.spliceShift k count [] :: rest ∧
      ∀ c ∈ rest, Resizing false (b.splicedSlots k count []) c) :
    ∃ t', t.followed shifts = .ok t' := by
  refine LineTable.exists_followed (orderly_of_removal hb hk hstop ht hclear hlimit h hshifts) ?_
  intro s hs
  obtain ⟨j, hj, hline, -⟩ := exists_start_of_removal hk hstop hshifts s hs
  rw [ht.size_eq, ← start_length b, hline]
  exact start_lt_start hb.solid hj hj

end Removal

end Block

end Tripwire
