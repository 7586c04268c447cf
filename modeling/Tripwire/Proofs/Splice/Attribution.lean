import Tripwire.Proofs.LineTable.Cover
import Tripwire.Proofs.LineTable.Shrink
import Tripwire.Proofs.Splice.Cuts
import Tripwire.Proofs.Splice.Insertion
import Tripwire.Proofs.Splice.Removal

/-!
# The lines of edited code

* `LineTable.lineAt?_of_growing`: the lines of the bytes of code that has grown;
* `lineAt?_of_insertAt`: after an insertion the old instructions have their lines, and the new ones
  the line of the instruction that they stand in front of.
-/

namespace Tripwire

/-! ### Code that grows -/

namespace Shift

variable {s : Shift} {shifts : List Shift} {c q : Nat}

theorem drift_cons (s : Shift) (shifts : List Shift) (q : Nat) :
    drift (s :: shifts) q = drift shifts q + if s.lineOffset < q then s.delta else 0 := by
  rw [drift_perm (List.perm_append_singleton s shifts).symm, drift_snoc]

theorem lineOffset_of_nonneg (h : 0 ≤ s.delta) : s.lineOffset = s.offset := by
  unfold lineOffset
  split
  · rw [if_neg (Int.not_lt.2 h)]
  · rfl

/-- Cuts at or in front of a position do not come behind the cut there. -/
theorem drift_mono (hgrow : ∀ s ∈ shifts, 0 ≤ s.delta) (hcq : c ≤ q) :
    drift shifts c ≤ drift shifts q := by
  induction shifts with
  | nil => simpa using hcq
  | cons s shifts ih =>
    have hs := hgrow s (List.mem_cons_self ..)
    have htail := ih fun s' hs' => hgrow s' (List.mem_cons_of_mem _ hs')
    rw [drift_cons, drift_cons]
    by_cases hc : s.lineOffset < c
    · rw [if_pos hc, if_pos (hc.trans_le hcq)]
      omega
    · rw [if_neg hc]
      split <;> omega

/-- Cuts behind a position stay behind it. -/
theorem image_lt_drift (hgrow : ∀ s ∈ shifts, 0 ≤ s.delta) (hqc : q < c) :
    image shifts q < drift shifts c := by
  induction shifts with
  | nil => simpa using hqc
  | cons s shifts ih =>
    have hs := hgrow s (List.mem_cons_self ..)
    have htail := ih fun s' hs' => hgrow s' (List.mem_cons_of_mem _ hs')
    rw [image_cons, drift_cons, lineOffset_of_nonneg hs]
    by_cases hc : s.offset < c
    · rw [if_pos hc]
      split <;> omega
    · -- What lies behind the cut does not move the position.
      have hmoves : ¬ s.moves q = true := by
        unfold moves
        split <;> simp only [decide_eq_true_eq] <;> omega
      rw [if_neg hc, if_neg hmoves]
      omega

end Shift

namespace LineTable

variable {t t' : LineTable} {shifts : List Shift} {p q : Nat}

/-- When code grows, the cuts move with it. -/
theorem recut_of_growing (hgrow : ∀ s ∈ shifts, 0 ≤ s.delta)
    (hsize : Shift.drift shifts t.size < limit32) (h : t.followed shifts = .ok t') :
    ∃ g : Nat → Nat, (∀ q, (g q : Int) = Shift.drift shifts q) ∧ t.Keeps g ∧ t' = t.recut g := by
  have horderly := orderly_of_growing hgrow hsize
  have hg : ∀ q : Nat, ((Shift.drift shifts q).toNat : Int) = Shift.drift shifts q := fun q => by
    have htotal : 0 ≤ Shift.total (shifts.filter fun s => s.lineOffset < q) :=
      Shift.total_nonneg fun s hs => hgrow s (List.mem_filter.1 hs).1
    rw [Shift.drift] at *
    omega
  exact ⟨_, hg, keeps_of_orderly horderly fun q _ => hg q,
    recut_of_followed horderly h fun q _ => hg q⟩

/-- When code grows, the bytes from where a cut at a position comes to stand up to where the
position itself comes to stand have the line of the position. -/
theorem lineAt?_of_growing (hgrow : ∀ s ∈ shifts, 0 ≤ s.delta)
    (hsize : Shift.drift shifts t.size < limit32) (h : t.followed shifts = .ok t')
    (hp : Shift.drift shifts q ≤ p) (hp' : p ≤ Shift.image shifts q) :
    t'.lineAt? p = t.lineAt? q := by
  obtain ⟨g, hg, hkeeps, rfl⟩ := recut_of_growing hgrow hsize h
  have hend := hg t.size
  have htotal : 0 ≤ Shift.total (shifts.filter fun s => s.lineOffset < t.size) :=
    Shift.total_nonneg fun s hs => hgrow s (List.mem_filter.1 hs).1
  have hold : t.size < limit32 := by
    rw [Shift.drift] at hsize
    omega
  refine lineAt?_recut hkeeps hold (by omega) fun c _ => ?_
  have hc := hg c
  constructor
  · intro hcp
    by_contra hqc
    have hbehind := Shift.image_lt_drift hgrow (Nat.lt_of_not_le hqc)
    omega
  · intro hcq
    have hfront := Shift.drift_mono hgrow hcq
    omega

end LineTable

namespace Block

variable {b added : Block} {out : List Slot} {k : Nat} {shifts : List Shift} {t : LineTable}

/-- A table that covers a block can follow the block when new instructions come into it. -/
theorem exists_followed_of_relocated (hb : b.Solid) (hk : k < b.length)
    (h : Relocated (b.spliceShift k 0 added) (b.splicedSlots k 0 added) out shifts)
    (hshifts : ∃ rest, shifts = b.spliceShift k 0 added :: rest ∧
      ∀ c ∈ rest, Resizing true (b.splicedSlots k 0 added) c)
    (ht : t.size = b.size) (hsize : size (instructionsOf out) < limit32) :
    ∃ t', t.followed shifts = .ok t' ∧ t'.size = size (instructionsOf out) ∧
      (∀ j < b.length, t'.lineAt? (start (instructionsOf out) (carry k 0 added.length j)) =
        t.lineAt? (start b j)) ∧
      ∀ p, start (instructionsOf out) k ≤ p → p < start (instructionsOf out) (k + added.length) →
        t'.lineAt? p = t.lineAt? (start b k) := by
  have hgrow := nonneg_of_insertion hshifts
  have hend : Shift.drift shifts t.size = size (instructionsOf out) := by
    rw [ht, drift_size_of_insertion hb hk h hshifts]
  have hroom : Shift.drift shifts t.size < limit32 := by omega
  obtain ⟨t', hfollowed⟩ := LineTable.exists_followed (LineTable.orderly_of_growing hgrow hroom) (by
    rw [ht]
    exact lineOffset_lt_of_insertion hb hk hshifts)
  refine ⟨t', hfollowed, ?_, fun j hj => ?_, fun p hp hpstop => ?_⟩
  · obtain ⟨g, hg, hkeeps, rfl⟩ := LineTable.recut_of_growing hgrow hroom hfollowed
    have hlast := hg t.size
    rw [LineTable.size_recut hkeeps]
    omega
  · have himage := image_of_relocated hb hk.le h hj.le (by omega)
    have hcut : carryCut k 0 added.length j ≤ carry k 0 added.length j := by
      unfold carryCut carry
      split <;> split <;> omega
    refine LineTable.lineAt?_of_growing hgrow hroom hfollowed ?_ himage.symm.le
    rw [drift_of_insertion hb hk h hshifts hj.le]
    exact_mod_cast start_mono _ hcut
  · have himage := image_of_relocated hb hk.le h hk.le (.inl le_rfl)
    have hcarry : carry k 0 added.length k = k + added.length := carry_of_le _ le_rfl
    refine LineTable.lineAt?_of_growing hgrow hroom hfollowed ?_ ?_
    · rw [drift_of_insertion hb hk h hshifts hk.le, carryCut_of_le _ _ le_rfl]
      exact_mod_cast hp
    · rw [himage, hcarry]
      exact_mod_cast hpstop.le

end Block

section Insert

variable {code : List UInt8} {b added : Block} {k : Nat} {t : LineTable}

/-- A splice succeeds with code below the bound of sizes exactly when there is a layout below it. A
line table can then follow, wherever its runs begin and end. The old instructions have the lines
that they had, and the new ones have the line of the instruction that they stand in front of. -/
theorem lineAt?_of_insertAt (hdecode : Block.decode code = .ok b)
    (hsteady : ∀ i ∈ b, i.flow ≠ .suspension) (hclosed : b.Closed) (ht : t.size = code.length)
    (hadded : added.Placeable) (hne : added ≠ []) (hk : k < b.length) :
    ((∃ e, insertAt code added (b.start k) = .ok e ∧ e.code.length < limit32 / 2) ↔
        ∃ c, Block.Laid true b k 0 added c ∧ c.size < limit32 / 2) ∧
      ∀ e, insertAt code added (b.start k) = .ok e → e.code.length < limit32 → ∃ c t',
        e.code = Block.encode c ∧ Block.Laid true b k 0 added c ∧
        t.followed e.shifts = .ok t' ∧ t'.size = e.code.length ∧
        (∀ j < b.length, Shift.image e.shifts (b.start j) = c.start (carry k 0 added.length j) ∧
          t'.lineAt? (c.start (carry k 0 added.length j)) = t.lineAt? (b.start j)) ∧
        ∀ p, c.start k ≤ p → p < c.start (k + added.length) →
          t'.lineAt? p = t.lineAt? (b.start k) := by
  have hb : b.Valid := ⟨Block.encodable_of_decode hdecode, hsteady, hclosed⟩
  have hpos := hadded.size_pos hne
  refine ⟨exists_insertAt_iff hdecode hb hadded hpos hk, fun e h hsize => ?_⟩
  obtain ⟨out, hrelocate, hrelocated, hlaid, hcode⟩ :=
    exists_laid_of_insertAt hdecode hb hadded hpos hk h
  have hshifts := Block.exists_resizing_of_insertion hb.encodable hadded.fits hk.le hpos hrelocate
  have hlength : e.code.length = Block.size (instructionsOf out) := by
    rw [hcode, Block.length_encode_of_relocated hrelocated]
  obtain ⟨t', hfollowed, htsize, hold, hnew⟩ := Block.exists_followed_of_relocated hb.solid hk
    hrelocated hshifts (ht.trans (Block.size_of_decode hdecode).symm) (hlength ▸ hsize)
  exact ⟨instructionsOf out, t', hcode, hlaid, hfollowed, htsize.trans hlength.symm, fun j hj =>
    ⟨Block.image_of_relocated hb.solid hk.le hrelocated hj.le (by omega), hold j hj⟩, hnew⟩

/-- A table with a run that begins inside an instruction, and an empty run, can follow. -/
theorem exists_lineAt?_insertAt : ∃ e t',
    insertAt (Block.encode [⟨.jumpAbsolute, 2, 1⟩, .bare .returnValue]) [.bare .nop] 2 = .ok e ∧
      (LineTable.ofSpans 1 [(1, some 1), (0, some 5), (3, some 2)]).followed e.shifts = .ok t' ∧
      t'.size = 6 ∧ t'.lineAt? 4 = some 2 := by
  have hdecode : Block.decode (Block.encode [⟨.jumpAbsolute, 2, 1⟩, .bare .returnValue]) =
      .ok [⟨.jumpAbsolute, 2, 1⟩, .bare .returnValue] := Block.decode_encode (by decide)
  have hinsert : insertAt (Block.encode [⟨.jumpAbsolute, 2, 1⟩, .bare .returnValue])
      [.bare .nop] 2 = .ok ⟨Block.encode [⟨.jumpAbsolute, 4, 1⟩, .bare .nop, .bare .returnValue],
        [.before 2 2], []⟩ :=
    insertAt_eq_ok_iff.2 ⟨_, ⟨[.ofPlaced ⟨.jumpAbsolute, 2, 1⟩ 0, .fresh (.bare .nop),
      .ofPlaced (.bare .returnValue) 2], .before 2 2, []⟩,
      Block.ofCode_eq_ok_iff.2 ⟨hdecode, by decide⟩, by decide,
      Block.finish_eq_ok_iff.2 ⟨_, rfl, rfl, by decide, rfl, rfl⟩⟩
  have hadded : Block.Addable [.bare .nop] := by decide
  obtain ⟨-, hlines⟩ := lineAt?_of_insertAt (k := 1)
    (t := .ofSpans 1 [(1, some 1), (0, some 5), (3, some 2)]) hdecode (by decide) (by decide)
    (by decide) hadded.placeable (by decide) (by decide)
  obtain ⟨c, t', -, -, hfollowed, hsize, hold, -⟩ := hlines _ hinsert (by decide)
  obtain ⟨himage, hline⟩ := hold 1 (by decide)
  have hstart : c.start (carry 1 0 1 1) = 4 := Int.ofNat_inj.1 himage.symm
  refine ⟨_, t', hinsert, hfollowed, hsize, ?_⟩
  rw [← hstart]
  exact hline

end Insert

end Tripwire
