import Tripwire.Proofs.LineTable.Cover
import Tripwire.Proofs.LineTable.Shrink
import Tripwire.Proofs.Splice.Cuts
import Tripwire.Proofs.Splice.Removal

/-!
# The lines of code with a range taken out

All bytes of a range are taken from one run, that of its first byte. Where the range
goes on into other runs this one loses as many bytes in front of the range as the
range has in the others, and the instructions there come under the lines that follow.
All others keep their lines.

* `LineTable.Shielded`: offsets whose lines a removal cannot take;
* `Block.lift_of_stays`, `Block.lift_of_resizing`: what is left of an instruction, and what is
  taken out of one that gets narrower, comes from its bytes;
* `Block.lineAt?_of_removal`: shielded instructions keep their lines;
* `Block.lineAt?_of_removal_of_entry`: so do those that the run of the range still covers;
* `lineAt?_of_removeAt`: the same for removals from code;
* `exists_line_lost`: an instruction that is not shielded.
-/

namespace Tripwire

namespace LineTable

variable {t : LineTable} {b : Block} {q : Nat}

/-- All bytes of an instruction have its line. -/
theorem Aligned.lineAt?_eq (h : t.Aligned b) (hb : b.Solid) (hsize : t.size < limit32) {j : Nat}
    (hj : j < b.length) (hq : b.start j ≤ q) (hq' : q < b.start (j + 1)) :
    t.lineAt? q = t.lineAt? (b.start j) := by
  refine lineAt?_congr hsize fun c hc => ?_
  obtain ⟨m, hm, rfl⟩ := h.cuts c hc
  rw [Block.start_le_start_iff hb hm]
  refine ⟨fun hmq => ?_, fun hmj => (b.start_mono hmj).trans hq⟩
  have hlt := (Block.start_lt_start_iff hb hj).1 (hmq.trans_lt hq')
  omega

/-- The removal of a range cannot take the line of a byte that stands behind the range, or with a
cut between itself and the range, or anywhere when all of the range has one line. -/
def Shielded (t : LineTable) (first stop y : Nat) : Prop :=
  stop ≤ y ∨ (∃ a ∈ t.cuts, y < a ∧ a ≤ first) ∨
    ∀ q, first ≤ q → q < stop → t.lineAt? q = t.lineAt? first

/-- What stands behind a shielded byte is shielded as well, unless there is a cut between them. -/
theorem Shielded.of_lt {first stop y z : Nat} (h : t.Shielded first stop y) (hyz : y < z) :
    (∃ a ∈ t.cuts, y < a ∧ a ≤ z) ∨ t.Shielded first stop z := by
  rcases h with h | ⟨a, ha, hya, hafirst⟩ | h
  · exact .inr (.inl (h.trans hyz.le))
  · rcases Nat.lt_or_ge z a with hza | haz
    · exact .inr (.inr (.inl ⟨a, ha, hza, hafirst⟩))
    · exact .inl ⟨a, ha, hya, haz⟩
  · exact .inr (.inr (.inr h))

/-- Shielded instructions are shielded as a whole. -/
theorem Aligned.shielded (h : t.Aligned b) (hb : b.Solid) {first stop j : Nat}
    (hs : t.Shielded first stop (b.start j)) (hq : b.start j ≤ q) (hq' : q < b.start (j + 1)) :
    t.Shielded first stop q := by
  rcases hs with hs | ⟨a, ha, hja, hafirst⟩ | hs
  · exact .inl (hs.trans hq)
  · obtain ⟨m, hm, rfl⟩ := h.cuts a ha
    have hjm : j + 1 ≤ m := (Block.start_lt_start_iff hb hm).1 hja
    exact .inr (.inl ⟨_, ha, hq'.trans_le (b.start_mono hjm), hafirst⟩)
  · exact .inr (.inr hs)

end LineTable

namespace Block

variable {b : Block} {out : List Slot} {k count : Nat} {shifts : List Shift} {t t' : LineTable}

/-- What is made before the range is taken out lies behind it. -/
theorem stop_le_of_removal (hb : b.Solid) (hk : k < b.length) (hstop : k + count ≤ b.length)
    (hshifts : ∃ rest, shifts = b.spliceShift k count [] :: rest ∧
      ∀ c ∈ rest, Resizing false (b.splicedSlots k count []) c) {made : List Shift}
    (hmade : made ++ [b.spliceShift k count []] <+: LineTable.fallingOrder shifts) :
    ∀ s ∈ made, start b (k + count) ≤ s.lineOffset := by
  intro s hs
  have hfalling := (LineTable.pairwise_fallingOrder shifts).sublist hmade.sublist
  have hfirst := (List.pairwise_append.1 hfalling).2.2 s hs _ (List.mem_singleton_self _)
  obtain ⟨rest, hrest, hresizing⟩ := hshifts
  obtain ⟨later, hlater⟩ := hmade
  have hperm : (made ++ later).Perm rest := by
    have hall := LineTable.perm_fallingOrder shifts
    rw [← hlater, List.append_assoc, List.singleton_append, hrest] at hall
    exact (List.perm_middle.symm.trans hall).cons_inv
  obtain ⟨j, hj, hline, hjk⟩ := exists_start_of_resizing hstop
    (hresizing s (hperm.mem_iff.1 (List.mem_append_left _ hs)))
  rw [lineOffset_spliceShift (.inr rfl), hline, start_le_start_iff hb hk.le] at hfirst
  rw [hline]
  rcases hjk with hjk | hjk
  · omega
  · exact start_mono b hjk

section Lift

variable (hb : b.Solid) (hk : k < b.length) (hstop : k + count ≤ b.length)
  (h : Relocated (b.spliceShift k count []) (b.splicedSlots k count []) out shifts)
  (hshifts : ∃ rest, shifts = b.spliceShift k count [] :: rest ∧
    ∀ c ∈ rest, Resizing false (b.splicedSlots k count []) c)

include hb hk hstop h hshifts

/-- A change leaves what stands behind it behind it. -/
theorem behind_of_removal {made : List Shift} {s : Shift}
    (hmade : made ++ [s] <+: LineTable.fallingOrder shifts) {m : Nat} (hm : m ≤ b.length)
    (hmk : m ≤ k ∨ k + count ≤ m) (hsm : s.lineOffset < start b m) :
    s.lineOffset ≤ Shift.drift (made ++ [s]) (start b m) := by
  have hs : s ∈ shifts := LineTable.mem_of_isPrefix_fallingOrder hmade
  obtain ⟨j, hj, hline, hjk⟩ := exists_start_of_removal hk hstop hshifts s hs
  have hleft := LineTable.add_total_le_drift (nonpos_of_removal hshifts) hmade (start b m)
  rw [total_between shifts hsm.le] at hleft
  rw [hline] at hsm hleft ⊢
  have hjm : j < m := (start_lt_start_iff hb hm).1 hsm
  have hcut : carryCut k count 0 j ≤ carryCut k count 0 m := by
    unfold carryCut
    split <;> split <;> omega
  have hmono := start_mono (instructionsOf out) hcut
  rw [drift_of_removal hb hstop h hshifts hj.le hjk,
    drift_of_removal hb hstop h hshifts hm hmk] at hleft
  omega

/-- What is left of an instruction comes from its bytes. -/
theorem lift_of_removal {made : List Shift} (hmade : made <+: LineTable.fallingOrder shifts)
    {j p : Nat} (hj : j < b.length) (hjk : Stays k count j)
    (hp : Shift.drift made (start b j) ≤ p) (hp' : p < Shift.drift made (start b (j + 1))) :
    start b j ≤ Shift.lift made p ∧ Shift.lift made p < start b (j + 1) := by
  have hmem : ∀ s ∈ made, s ∈ shifts := fun s hs =>
    LineTable.mem_fallingOrder.1 (hmade.subset hs)
  refine Shift.lift_between ((LineTable.pairwise_fallingOrder shifts).sublist hmade.sublist)
    (fun s hs => nonpos_of_removal hshifts s (hmem s hs)) (fun s hs => ?_)
    (start_lt_start hb (Nat.lt_succ_self j) hj) (fun made' s hmade' hsj => ?_) hp hp'
  · obtain ⟨l, -, hline, -⟩ := exists_start_of_removal hk hstop hshifts s (hmem s hs)
    rw [hline]
    exact (Nat.lt_or_ge j l).symm.imp (start_mono b) (start_mono b)
  · exact behind_of_removal hb hk hstop h hshifts (hmade'.trans hmade) hj.le
      (hjk.imp_left le_of_lt) hsj

/-- The bytes by which an instruction that stays is made narrower are bytes of its own. -/
theorem lift_of_resizing {made : List Shift} {s : Shift}
    (hmade : made ++ [s] <+: LineTable.fallingOrder shifts) {j q : Nat} (hj : j < b.length)
    (hjk : Stays k count j) (hline : s.lineOffset = start b j) (hq : start b j ≤ q)
    (hq' : q < start b j + s.delta.natAbs) :
    start b j ≤ Shift.lift made q ∧ Shift.lift made q < start b (j + 1) := by
  have hfalling := (LineTable.pairwise_fallingOrder shifts).sublist hmade.sublist
  have hstay : Shift.drift made (start b j) = start b j := Shift.drift_eq_self fun s' hs' => by
    rw [← hline]
    exact (List.pairwise_append.1 hfalling).2.2 s' hs' s (List.mem_singleton_self s)
  have hsj : s.lineOffset < start b (j + 1) := by
    rw [hline]
    exact start_lt_start hb (Nat.lt_succ_self j) hj
  have hnext : j + 1 ≤ k ∨ k + count ≤ j + 1 := hjk.imp Nat.succ_le_of_lt (Nat.le_succ_of_le ·)
  have hbehind := behind_of_removal (m := j + 1) hb hk hstop h hshifts hmade hj hnext hsj
  have hdelta := nonpos_of_removal hshifts s (LineTable.mem_of_isPrefix_fallingOrder hmade)
  rw [Shift.drift_snoc, if_pos hsj, hline] at hbehind
  exact lift_of_removal hb hk hstop h hshifts ((List.prefix_append _ _).trans hmade) hj hjk
    (by omega) (by omega)

/-- What is left of an instruction comes from its bytes when all changes have been made. -/
theorem lift_of_stays {j : Nat} (hj : j < b.length) (hjk : Stays k count j) :
    start b j ≤ Shift.lift (LineTable.fallingOrder shifts)
        (start (instructionsOf out) (carry k count 0 j)) ∧
      Shift.lift (LineTable.fallingOrder shifts)
        (start (instructionsOf out) (carry k count 0 j)) < start b (j + 1) := by
  have hlen := length_instructionsOf_of_follows hstop (h.leans.imp fun _ _ hleans => hleans.follows)
  have hcut : carryCut k count 0 j = carry k count 0 j := by
    unfold carryCut carry
    rcases hjk with hjk | hjk <;> split <;> split <;> omega
  have hcut' : carryCut k count 0 (j + 1) = carry k count 0 j + 1 := by
    unfold carryCut carry
    rcases hjk with hjk | hjk <;> split <;> split <;> omega
  have hcarry : carry k count 0 j < (instructionsOf out).length := by
    rw [hlen, List.length_nil]
    unfold carry
    rcases hjk with hjk | hjk <;> split <;> omega
  have hnext : j + 1 ≤ k ∨ k + count ≤ j + 1 := hjk.imp Nat.succ_le_of_lt (Nat.le_succ_of_le ·)
  have hdrift := Shift.drift_perm (LineTable.perm_fallingOrder shifts)
  refine lift_of_removal hb hk hstop h hshifts (List.prefix_refl _) hj hjk ?_ ?_
  · rw [hdrift, drift_of_removal hb hstop h hshifts hj.le (hjk.imp_left le_of_lt), hcut]
  · rw [hdrift, drift_of_removal hb hstop h hshifts (Nat.succ_le_of_lt hj) hnext, hcut']
    exact_mod_cast start_lt_start (solid_of_fits h.fits) (Nat.lt_succ_self _) hcarry

/-- A change behind a shielded offset has a cut in front of it, or it takes out bytes of one line,
all of them shielded. -/
theorem exists_cut_or_line (ht : t.Aligned b) (hlimit : b.size < limit32) {made : List Shift}
    {s : Shift} (hmade : made ++ [s] <+: LineTable.fallingOrder shifts) {y : Nat}
    (hy : t.Shielded (start b k) (start b (k + count)) y) (hys : y < s.lineOffset) :
    (∃ a ∈ t.cuts, y < a ∧ a ≤ s.lineOffset) ∨
      ∃ line, ∀ q, s.lineOffset ≤ q → q < s.lineOffset + s.delta.natAbs →
        t.Shielded (start b k) (start b (k + count)) (Shift.lift made q) ∧
          t.lineAt? (Shift.lift made q) = line := by
  refine (hy.of_lt hys).imp_right fun hshielded => ?_
  have hs : s ∈ shifts := LineTable.mem_of_isPrefix_fallingOrder hmade
  obtain ⟨rest, hrest, hresizing⟩ := id hshifts
  rw [hrest] at hs
  rcases List.mem_cons.1 hs with rfl | hs
  · -- The range is taken out. An offset in front of it is shielded by the line of the range.
    have hline : (b.spliceShift k count []).lineOffset = start b k :=
      lineOffset_spliceShift (.inr rfl)
    have hmono : start b k ≤ start b (k + count) := start_mono b (Nat.le_add_right _ _)
    have hdelta : (b.spliceShift k count []).delta.natAbs = start b (k + count) - start b k := by
      simp only [spliceShift, Shift.before, size_nil]
      omega
    rw [hline] at hshielded
    rw [hline, hdelta]
    refine ⟨t.lineAt? (start b k), fun q hq hq' => ?_⟩
    have hself : Shift.lift made q = q := Shift.lift_eq_self fun s hs => by
      have := stop_le_of_removal hb hk hstop hshifts hmade s hs
      omega
    rcases hshielded with hback | ⟨a, -, hka, hak⟩ | hone
    · omega
    · omega
    · rw [hself]
      exact ⟨.inr (.inr hone), hone q hq (by omega)⟩
  · -- An instruction gets narrower.
    obtain ⟨l, hl, hline, hlk⟩ := exists_start_of_resizing hstop (hresizing s hs)
    rw [hline] at hshielded ⊢
    refine ⟨t.lineAt? (start b l), fun q hq hq' => ?_⟩
    obtain ⟨hlow, hhigh⟩ := lift_of_resizing hb hk hstop h hshifts hmade hl hlk hline hq hq'
    exact ⟨ht.shielded hb hshielded hlow hhigh,
      ht.lineAt?_eq hb (by rwa [ht.size_eq]) hl hlow hhigh⟩

/-- When a table follows a removal, shielded instructions keep their lines. -/
theorem lineAt?_of_removal (ht : t.Aligned b) (hlimit : b.size < limit32)
    (hf : t.followed shifts = .ok t') {j : Nat} (hj : j < b.length) (hjk : Stays k count j)
    (hshield : t.Shielded (start b k) (start b (k + count)) (start b j)) :
    t'.lineAt? (start (instructionsOf out) (carry k count 0 j)) = t.lineAt? (start b j) := by
  have hsize : t.size < limit32 := by rwa [ht.size_eq]
  have hshrink : ∀ s ∈ LineTable.fallingOrder shifts, s.delta ≤ 0 := fun s hs =>
    nonpos_of_removal hshifts s (LineTable.mem_fallingOrder.1 hs)
  obtain ⟨hlow, hhigh⟩ := lift_of_stays hb hk hstop h hshifts hj hjk
  rw [LineTable.lineAt?_of_adjustAll hsize (LineTable.pairwise_fallingOrder shifts) hshrink
    (fun made s hmade y => exists_cut_or_line hb hk hstop h hshifts ht hlimit hmade)
    (LineTable.followed_eq_ok_iff.1 hf) (ht.shielded hb hshield hlow hhigh)]
  exact ht.lineAt?_eq hb hsize hj hlow hhigh

/-- Inside the range a place moves as far as its end does. -/
theorem drift_in_removal {q : Nat} (hq : start b k < q) (hq' : q ≤ start b (k + count)) :
    Shift.drift shifts q + (start b (k + count) - q) = start (instructionsOf out) k := by
  have hnone : shifts.filter (fun s => q ≤ s.lineOffset ∧ s.lineOffset < start b (k + count)) =
      [] := by
    rw [List.filter_eq_nil_iff]
    intro s hs hbetween
    obtain ⟨hqs, hsr⟩ := of_decide_eq_true hbetween
    obtain ⟨l, -, hline, hlk⟩ := exists_start_of_removal hk hstop hshifts s hs
    rw [hline] at hqs hsr
    rcases hlk with hlk | hlk
    · have := start_mono b hlk
      omega
    · have := start_mono b hlk
      omega
  have htotal := total_between shifts hq'
  have hcut : carryCut k count 0 (k + count) = k := by
    unfold carryCut
    split <;> omega
  rw [hnone, Shift.total_nil, drift_of_removal hb hstop h hshifts hstop (.inr le_rfl), hcut]
    at htotal
  omega

/-- The entry in which the range begins gives all of its bytes up, also those that it covers behind
its own end, but the instructions that still lie in it keep their lines. -/
theorem lineAt?_of_removal_of_reach (ht : t.Aligned b) (hlimit : b.size < limit32)
    (hf : t.followed shifts = .ok t') {entry : LineEntry} (he : entry ∈ t.entries)
    (hk' : start b k < entry.stop) (hreach : entry.stop ≤ start b (k + count)) {j : Nat}
    (hjk : j < k) (hj : entry.start ≤ start b j)
    (hleft : start (instructionsOf out) j + (start b (k + count) - entry.stop) <
      start (instructionsOf out) k) :
    t'.lineAt? (start (instructionsOf out) j) = t.lineAt? (start b j) := by
  have hsize : t.size < limit32 := by rwa [ht.size_eq]
  have hstretch := LineTable.stretch_of_mem_entries hsize he
  obtain ⟨m, hm, hentry⟩ := ht.cuts _ hstretch.start_mem
  have hmj : m ≤ j := (start_le_start_iff hb hm).1 (hentry ▸ hj)
  have hmono := start_mono b hjk.le
  have hshrink : ∀ s ∈ LineTable.fallingOrder shifts, s.delta ≤ 0 := fun s hs =>
    nonpos_of_removal hshifts s (LineTable.mem_fallingOrder.1 hs)
  have hbehind : ∀ made s, made ++ [s] <+: LineTable.fallingOrder shifts →
      s.lineOffset < entry.start →
        (s.lineOffset : Int) ≤ Shift.drift (made ++ [s]) entry.start := by
    intro made s hmade hs
    rw [← hentry] at hs ⊢
    exact behind_of_removal hb hk hstop h hshifts hmade hm (.inl (by omega)) hs
  obtain ⟨start', stop', hstretch', hstart', -, hstop'⟩ := hstretch.adjustAll hsize
    (LineTable.pairwise_fallingOrder shifts) hshrink hbehind (LineTable.followed_eq_ok_iff.1 hf)
  have hdrift := Shift.drift_perm (LineTable.perm_fallingOrder shifts)
  rw [hdrift, ← hentry, drift_of_removal hb hstop h hshifts hm (.inl (by omega)),
    carryCut_of_le _ _ (by omega)] at hstart'
  rw [hdrift] at hstop'
  have hrange := drift_in_removal hb hk hstop h hshifts hk' hreach
  have hmono' := start_mono (instructionsOf out) hmj
  rw [hstretch'.lineAt?_eq _ (by omega) (by omega), hstretch.lineAt?_eq _ hj (by omega)]

/-- Instructions in front of the range keep their lines up to as many bytes in front of the splice
as the range has behind the entry in which it begins. -/
theorem lineAt?_of_removal_of_entry (ht : t.Aligned b) (hlimit : b.size < limit32)
    (hf : t.followed shifts = .ok t') {entry : LineEntry} (he : entry ∈ t.entries)
    (hin : entry.contains (start b k)) {j : Nat} (hjk : j < k)
    (hleft : start (instructionsOf out) (carry k count 0 j) +
      (start b (k + count) - entry.stop) < start (instructionsOf out) k) :
    t'.lineAt? (start (instructionsOf out) (carry k count 0 j)) = t.lineAt? (start b j) := by
  simp only [LineEntry.contains, decide_eq_true_eq] at hin
  have hstretch := LineTable.stretch_of_mem_entries (by rwa [ht.size_eq]) he
  have hshielded := lineAt?_of_removal hb hk hstop h hshifts ht hlimit hf (hjk.trans hk) (.inl hjk)
  rcases Nat.lt_or_ge (start b j) entry.start with hfront | hshare
  · exact hshielded (.inr (.inl ⟨entry.start, hstretch.start_mem, hfront, hin.1⟩))
  · rcases Nat.le_total entry.stop (start b (k + count)) with hreach | hwithin
    · rw [carry_of_lt count 0 hjk] at hleft ⊢
      exact lineAt?_of_removal_of_reach hb hk hstop h hshifts ht hlimit hf he hin.2 hreach hjk
        hshare hleft
    · -- All of the range lies in the entry.
      refine hshielded (.inr (.inr fun q hq hq' => ?_))
      rw [hstretch.lineAt?_eq q (hin.1.trans hq) (hq'.trans_le hwithin),
        hstretch.lineAt?_eq _ hin.1 hin.2]

end Lift

end Block

section Remove

variable {code : List UInt8} {b : Block} {offset count : Nat} {e : Edit} {t t' : LineTable}

/-- When a line table can follow a removal, the instructions behind the range keep their lines, and
so do those in front of it that do not share the entry in which the range begins. Those that share
it keep theirs when all of the range has one line. Otherwise the range goes on behind the entry, and
they keep theirs up to as many bytes in front of the splice as it has there. -/
theorem lineAt?_of_removeAt (hdecode : Block.decode code = .ok b)
    (hsteady : ∀ i ∈ b, i.flow ≠ .suspension) (hclosed : b.Closed) (hlimit : code.length < limit32)
    (ht : t.size = code.length) (hentries : ∀ entry ∈ t.entries, entry.start ∈ b.offsets)
    (h : removeAt code offset count = .ok e) (hf : t.followed e.shifts = .ok t') :
    ∃ k c, k < b.length ∧ b.start k = offset ∧ Block.decode e.code = .ok c ∧
      List.Forall₂ Instruction.Resized (b.spliced k count []) c ∧
      ∀ j < b.length, Stays k count j →
        Shift.image e.shifts (b.start j) = c.start (carry k count 0 j) ∧
        (k + count ≤ j ∨ (∃ entry ∈ t.entries, b.start j < entry.start ∧ entry.start ≤ offset) ∨
            (∀ q, offset ≤ q → q < b.start (k + count) → t.lineAt? q = t.lineAt? offset) ∨
            (∃ entry ∈ t.entries, entry.contains offset ∧
              c.start (carry k count 0 j) + (b.start (k + count) - entry.stop) < c.start k) →
          t'.lineAt? (c.start (carry k count 0 j)) = t.lineAt? (b.start j)) := by
  have hb : b.Valid := ⟨Block.encodable_of_decode hdecode, hsteady, hclosed⟩
  have hsize : b.size < limit32 := by rwa [Block.size_of_decode hdecode]
  have haligned : t.Aligned b := LineTable.aligned_of_entries
    (ht.trans (Block.size_of_decode hdecode).symm) (by rwa [ht]) hentries
  obtain ⟨k, out, hk, rfl, hstop, -, hrelocate, hrelocated, hcode, -, hspliced⟩ :=
    exists_out_of_removeAt hdecode hb h
  have hshifts := Block.exists_resizing_of_removal hb.encodable hstop hrelocate
  refine ⟨k, instructionsOf out, hk, rfl, ?_, hspliced.resized,
    fun j hj hjk => ⟨?_, fun hcond => ?_⟩⟩
  · rw [hcode, Block.decode_encode hspliced.valid.encodable]
  · exact hspliced.image_eq j hj.le (hjk.imp_left le_of_lt)
  · have hshielded := Block.lineAt?_of_removal hb.solid hk hstop hrelocated hshifts haligned hsize
      hf hj hjk
    rcases hcond with hback | ⟨entry, hentry, hfront, hfirst⟩ | hone | ⟨entry, hentry, hin, hleft⟩
    · exact hshielded (.inl (b.start_mono hback))
    · exact hshielded (.inr (.inl ⟨entry.start,
        (LineTable.start_of_mem_entries (by rwa [ht]) hentry).1, hfront, hfirst⟩))
    · exact hshielded (.inr (.inr hone))
    · rcases hjk with hjk | hjk
      · exact Block.lineAt?_of_removal_of_entry hb.solid hk hstop hrelocated hshifts haligned hsize
          hf hentry hin hjk hleft
      · exact hshielded (.inl (b.start_mono hjk))

/-- Instructions without effect and a return. -/
def Block.idle (n : Nat) : Block := .replicate n (.bare .nop) ++ [.bare .returnValue]

theorem removeAt_idle_seven : removeAt (Block.encode (.idle 7)) 10 2 =
    .ok ⟨Block.encode (.idle 5), [.before 14 (-4)], [.bare .nop, .bare .nop]⟩ :=
  removeAt_eq_ok_iff.2 ⟨_, ⟨_, .before 14 (-4), [.bare .nop, .bare .nop]⟩,
    Block.ofCode_eq_ok_iff.2 ⟨Block.decode_encode (by decide), by decide⟩, rfl,
    Block.finish_eq_ok_iff.2 ⟨_, rfl, rfl, by decide, rfl, rfl⟩⟩

/-- A range that begins two bytes in front of the end of an entry and goes on for two bytes behind
it. Only the last instruction in front of the range comes under the next line. -/
theorem exists_lineAt?_removeAt : ∃ e t', removeAt (Block.encode (.idle 7)) 10 2 = .ok e ∧
    (LineTable.ofSpans 1 [(12, some 1), (4, some 2)]).followed e.shifts = .ok t' ∧
      (∀ j < 4, t'.lineAt? (2 * j) = some 1) ∧ t'.lineAt? 8 = some 2 ∧ t'.lineAt? 10 = some 2 := by
  have hfollowed : (LineTable.ofSpans 1 [(12, some 1), (4, some 2)]).followed [.before 14 (-4)] =
      .ok (.ofSpans 1 [(8, some 1), (4, some 2)]) := by
    rw [LineTable.followed, LineTable.follow, LineTable.fallingOrder, List.mergeSort_singleton]
    rfl
  obtain ⟨k, c, hk, hstart, hdecode, -, hlines⟩ := lineAt?_of_removeAt
    (Block.decode_encode (by decide)) (by decide) (by decide) (by decide) (by decide) (by decide)
    removeAt_idle_seven hfollowed
  rw [Block.decode_encode (by decide)] at hdecode
  obtain rfl : Block.idle 5 = c := Except.ok.inj hdecode
  have hsolid : (Block.idle 7).Solid := by
    unfold Block.Solid
    decide
  obtain rfl : k = 5 := Block.start_inj hsolid hk.le (by decide) hstart
  refine ⟨_, _, removeAt_idle_seven, hfollowed, fun j hj => ?_, by decide, ?_⟩
  · have hnew : (Block.idle 5).start (carry 5 2 0 j) = 2 * j := by
      interval_cases j <;> rfl
    have hold : (LineTable.ofSpans 1 [(12, some 1), (4, some 2)]).lineAt?
        ((Block.idle 7).start j) = some 1 := by
      interval_cases j <;> decide
    have hleft : (Block.idle 5).start (carry 5 2 0 j) + (14 - 12) < (Block.idle 5).start 5 := by
      interval_cases j <;> decide
    rw [← hnew, (hlines j (hj.trans (by decide)) (.inl (by omega))).2
      (.inr (.inr (.inr ⟨⟨0, 12, some 1, 0⟩, by decide, rfl, hleft⟩))), hold]
  · have hnew : (Block.idle 5).start (carry 5 2 0 7) = 10 := rfl
    rw [← hnew, (hlines 7 (by decide) (.inr le_rfl)).2 (.inl le_rfl)]
    decide

/-- A range that goes on into the entry behind: the run in which it begins loses all of its bytes,
and the instruction in front of the range comes under the next line. -/
theorem exists_line_lost : ∃ e t', Block.decode (Block.encode (.idle 3)) = .ok (.idle 3) ∧
    (∀ i ∈ Block.idle 3, i.flow ≠ .suspension) ∧ (Block.idle 3).Closed ∧
    (LineTable.ofSpans 1 [(4, some 1), (4, some 2)]).size = (Block.encode (.idle 3)).length ∧
    (∀ entry ∈ (LineTable.ofSpans 1 [(4, some 1), (4, some 2)]).entries,
      entry.start ∈ (Block.idle 3).offsets) ∧
    removeAt (Block.encode (.idle 3)) 2 2 = .ok e ∧
    (LineTable.ofSpans 1 [(4, some 1), (4, some 2)]).followed e.shifts = .ok t' ∧
    Stays 1 2 0 ∧ Shift.image e.shifts ((Block.idle 3).start 0) = 0 ∧
    (LineTable.ofSpans 1 [(4, some 1), (4, some 2)]).lineAt? ((Block.idle 3).start 0) = some 1 ∧
    t'.lineAt? 0 = some 2 := by
  have hdecode : Block.decode (Block.encode (.idle 3)) = .ok (.idle 3) :=
    Block.decode_encode (by decide)
  have hremove : removeAt (Block.encode (.idle 3)) 2 2 =
      .ok ⟨Block.encode (.idle 1), [.before 6 (-4)], [.bare .nop, .bare .nop]⟩ :=
    removeAt_eq_ok_iff.2 ⟨_, ⟨_, .before 6 (-4), [.bare .nop, .bare .nop]⟩,
      Block.ofCode_eq_ok_iff.2 ⟨hdecode, by decide⟩, rfl,
      Block.finish_eq_ok_iff.2 ⟨_, rfl, rfl, by decide, rfl, rfl⟩⟩
  have hfollowed : (LineTable.ofSpans 1 [(4, some 1), (4, some 2)]).followed [.before 6 (-4)] =
      .ok (.ofSpans 1 [(0, some 1), (4, some 2)]) := by
    rw [LineTable.followed, LineTable.follow, LineTable.fallingOrder, List.mergeSort_singleton]
    rfl
  exact ⟨_, _, hdecode, by decide, by decide, by decide, by decide, hremove, hfollowed,
    .inl (by decide), rfl, by decide, by decide⟩

end Remove

end Tripwire
