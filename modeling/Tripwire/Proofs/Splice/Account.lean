import Tripwire.Proofs.Splice.Insertion

/-!
# What an insertion adds

Relocation goes by the widths that instructions state, and code is written with the
widths that their operands need. So an instruction that is stated too narrow adds
more bytes than the changes of the edit say. And an `extendedArg` put in by itself
is written as a word, but read as a part of the instruction behind it.

* `Block.shortfall`: the bytes that the stated widths leave out, with `Block.length_encode_eq`;
* `Block.lonePrefixes`: the instructions that are not read back, with
  `Block.length_add_lonePrefixes`;
* `Block.length_encode_of_adapted`, `Block.lonePrefixes_of_adapted`: both for an insertion;
* `insertAt_account`: the bytes and the instructions that an insertion adds.
-/

namespace Tripwire

/-! ### Bytes -/

namespace Block

variable {b c : Block}

/-- The bytes that operands need beyond the stated widths. -/
def shortfall (b : Block) : Nat :=
  b.foldr (fun i sum => (minimalWidth i.operand - i.width) * wordSize + sum) 0

@[simp] theorem shortfall_nil : shortfall [] = 0 := rfl

@[simp] theorem shortfall_cons (i : Instruction) (b : Block) :
    shortfall (i :: b) = (minimalWidth i.operand - i.width) * wordSize + shortfall b := rfl

@[simp] theorem shortfall_append (a b : Block) :
    shortfall (a ++ b) = shortfall a + shortfall b := by
  induction a with
  | nil => simp
  | cons i a ih => rw [List.cons_append, shortfall_cons, ih, shortfall_cons, Nat.add_assoc]

theorem shortfall_eq_zero_iff : b.shortfall = 0 ↔ ∀ i ∈ b, minimalWidth i.operand ≤ i.width := by
  induction b with
  | nil => simp
  | cons i b ih =>
    rw [shortfall_cons, List.forall_mem_cons, ← ih, wordSize]
    omega

theorem length_encode_eq (b : Block) : (encode b).length = b.size + b.shortfall := by
  rw [length_encode]
  induction b with
  | nil => rfl
  | cons i b ih =>
    rw [words_cons, List.length_append, Instruction.length_words, size_cons, shortfall_cons,
      Nat.add_mul, ih, Instruction.size, Instruction.encodedWidth]
    simp only [wordSize]
    omega

theorem shortfall_spliced_zero (b : Block) (k : Nat) (added : Block) :
    shortfall (b.spliced k 0 added) = shortfall b + shortfall added := by
  have hsplit := shortfall_append (b.take k) (b.drop k)
  rw [List.take_append_drop] at hsplit
  rw [spliced, shortfall_append, shortfall_append, Nat.add_zero, hsplit]
  omega

/-- Relocation leaves nothing to the stated widths but what they left out before. -/
theorem shortfall_of_follows {slots out : List Slot} (h : List.Forall₂ Slot.Follows slots out)
    (hslots : ∀ s ∈ slots, ∀ o, s.origin = some o → s.Fits)
    (hout : ∀ s ∈ out, ∀ o, s.origin = some o → s.Fits) :
    shortfall (instructionsOf out) = shortfall (instructionsOf slots) := by
  induction h with
  | nil => rfl
  | @cons s s' _ _ hs _ ih =>
    rw [List.forall_mem_cons] at hslots hout
    rw [instructionsOf_cons, instructionsOf_cons, shortfall_cons, shortfall_cons,
      ih hslots.2 hout.2]
    cases horigin : s.origin with
    | none => rw [hs.eq_of_not_jumps fun o t hj => by cases horigin.symm.trans hj.origin_eq]
    | some o =>
      have hold := (hslots.1 o horigin).minimalWidth_le
      have hnew := (hout.1 o (hs.origin_eq.trans horigin)).minimalWidth_le
      rw [Nat.sub_eq_zero_of_le hold, Nat.sub_eq_zero_of_le hnew]

/-! ### Instructions -/

/-- The instructions that are prefixes by themselves. -/
def lonePrefixes (b : Block) : Nat := b.countP fun i => i.opcode = .extendedArg

@[simp] theorem lonePrefixes_append (a b : Block) :
    lonePrefixes (a ++ b) = lonePrefixes a + lonePrefixes b :=
  List.countP_append

theorem lonePrefixes_eq_zero_iff : b.lonePrefixes = 0 ↔ ∀ i ∈ b, i.opcode ≠ .extendedArg := by
  simp [lonePrefixes, List.countP_eq_zero]

theorem lonePrefixes_spliced_zero (b : Block) (k : Nat) (added : Block) :
    lonePrefixes (b.spliced k 0 added) = lonePrefixes b + lonePrefixes added := by
  have hsplit := lonePrefixes_append (b.take k) (b.drop k)
  rw [List.take_append_drop] at hsplit
  rw [spliced, lonePrefixes_append, lonePrefixes_append, Nat.add_zero, hsplit]
  omega

theorem lonePrefixes_of_resized (h : List.Forall₂ Instruction.Resized b c) :
    lonePrefixes c = lonePrefixes b := by
  induction h with
  | nil => rfl
  | cons hi _ ih =>
    rw [lonePrefixes, lonePrefixes, List.countP_cons, List.countP_cons, hi.opcode_eq]
    exact congrArg (· + _) ih

/-- The words that close an instruction. -/
def closers (ws : List Word) : Nat := ws.countP fun w => w.1 ≠ Opcode.byte .extendedArg

theorem closers_prefixWords (i : Instruction) (count : Nat) : closers (i.prefixWords count) = 0 := by
  induction count with
  | zero => rfl
  | succ count ih =>
    rw [Instruction.prefixWords, closers, List.countP_cons_of_neg (by simp)]
    exact ih

/-- An instruction has one word that closes it, unless it is a prefix by itself. -/
theorem closers_words (b : Block) : closers (words b) + b.lonePrefixes = b.length := by
  induction b with
  | nil => rfl
  | cons i b ih =>
    have hprefix := closers_prefixWords i (i.encodedWidth - 1)
    rw [closers] at hprefix ih
    rw [lonePrefixes] at ih
    rw [closers, words_cons, Instruction.words, List.countP_append, List.countP_append, hprefix,
      lonePrefixes, List.countP_cons, List.length_cons, ← ih]
    by_cases hi : i.opcode = .extendedArg
    · simp [hi]
      omega
    · have hbyte : i.opcode.byte ≠ Opcode.byte .extendedArg := fun h => hi (Opcode.byte_injective h)
      simp [hi, hbyte]
      omega

/-- All instructions are read back but the prefixes by themselves. -/
theorem length_add_lonePrefixes (h : decode (encode b) = .ok c) :
    c.length + b.lonePrefixes = b.length := by
  have hwords : words c = words b := by
    rw [(words_of_decode h).1, encode, wordsOf_bytesOf]
  have hread := closers_words c
  have hwritten := closers_words b
  rw [lonePrefixes_eq_zero_iff.2 fun i hi => (encodable_of_decode h i hi).ne_extendedArg,
    hwords] at hread
  omega

/-! ### What relocation makes of an insertion -/

section Adapted

variable {added : Block} {out : List Slot} {k : Nat} {shifts : List Shift}
  (hb : ∀ i ∈ b, i.Encodable) (hk : k ≤ b.length)
  (h : Adapted (b.spliceShift k 0 added) (b.splicedSlots k 0 added) out shifts)

include hb hk h in
theorem length_encode_of_adapted : ((encode (instructionsOf out)).length : Int) =
    b.size + Shift.total shifts + added.shortfall := by
  have hsize := size_of_adapted (solid_of_encodable hb) hk h
  have hshort := shortfall_of_follows h.follows (fun s hs o ho => fits_of_origin hb hk hs ho) h.fits
  rw [instructionsOf_splicedSlots, shortfall_spliced_zero,
    shortfall_eq_zero_iff.2 fun i hi => (hb i hi).fits, Nat.zero_add] at hshort
  rw [length_encode_eq, hshort]
  omega

include hb h in
theorem lonePrefixes_of_adapted : (instructionsOf out).lonePrefixes = added.lonePrefixes := by
  rw [lonePrefixes_of_resized (resized_instructionsOf h.follows), lonePrefixes_spliced_zero,
    lonePrefixes_eq_zero_iff.2 fun i hi => (hb i hi).ne_extendedArg, Nat.zero_add]

include hk h in
/-- No instruction gets wider than can be, if those put in are not. -/
theorem width_le_of_adapted (ha : ∀ i ∈ added, i.width ≤ maximalWidth) :
    ∀ i ∈ instructionsOf out, i.width ≤ maximalWidth := by
  intro i hi
  obtain ⟨s', hs', rfl⟩ := List.mem_map.1 hi
  obtain ⟨s, hs, hfollow⟩ := exists_of_mem_right h.follows hs'
  obtain ⟨l, hl⟩ := List.mem_iff_getElem?.1 hs
  rcases exists_of_getElem?_splicedSlots hk hl with ⟨i, hi, rfl⟩ | ⟨m, i, -, -, -, rfl⟩
  · rw [hfollow.eq_of_not_jumps fun o t hj => nomatch hj.origin_eq]
    exact ha i hi
  · exact (h.fits s' hs' _ hfollow.origin_eq).width_le

end Adapted

/-- With the widths that they are written with, instructions are read back as they are. -/
theorem exists_decode_encode (hb : ∀ i ∈ b, i.opcode ≠ .extendedArg)
    (hwidth : ∀ i ∈ b, i.width ≤ maximalWidth) :
    ∃ c, decode (encode b) = .ok c ∧ c.length = b.length :=
  ⟨_, decode_encode_eq_map_raised fun i hi => ⟨hb i hi, hwidth i hi⟩, List.length_map _⟩

end Block

section Insert

variable {code : List UInt8} {added : Block} {offset : Nat} {e : Edit}

/-- An insertion adds the bytes that its changes say and those that the stated widths leave out, and
it adds the instructions of the block but for the prefixes by themselves. So it adds as many bytes as
it says exactly when the widths in the block suit the operands, and as many instructions as the block
has exactly when none of them is `extendedArg`. The stated size of the block is told in full, as it is
below the limit, and so is that of code which is below the limit. -/
theorem insertAt_account (h : insertAt code added offset = .ok e)
    (hwidth : ∀ i ∈ added, i.width ≤ maximalWidth) :
    ∃ b, Block.decode code = .ok b ∧
      (e.code.length : Int) = code.length + e.sizeDelta + added.shortfall ∧
      ((e.code.length : Int) = code.length + e.sizeDelta ↔
        ∀ i ∈ added, minimalWidth i.operand ≤ i.width) ∧
      (∀ c, Block.decode e.code = .ok c →
        c.length + added.lonePrefixes = b.length + added.length) ∧
      ((∃ c, Block.decode e.code = .ok c ∧ c.length = b.length + added.length) ↔
        ∀ i ∈ added, i.opcode ≠ .extendedArg) ∧
      added.size32.toNat = added.size ∧ (code.length < limit32 → b.size32.toNat = b.size) := by
  obtain ⟨b, k, out, hdecode, hk, -, -, -, hadapted, -, -, hcode⟩ := exists_adapted_of_insertAt h
  have hencodable := Block.encodable_of_decode hdecode
  have hbytes : (e.code.length : Int) = code.length + e.sizeDelta + added.shortfall := by
    rw [hcode, Block.length_encode_of_adapted hencodable hk.le hadapted,
      Block.size_of_decode hdecode, Edit.sizeDelta]
  have hprefixes := Block.lonePrefixes_of_adapted hencodable hadapted
  have hlength := Block.length_instructionsOf_of_follows hk.le hadapted.follows
  have hcount : ∀ c, Block.decode e.code = .ok c →
      c.length + added.lonePrefixes = b.length + added.length := by
    intro c hc
    rw [hcode] at hc
    have hread := Block.length_add_lonePrefixes hc
    omega
  have hadded : added.size32.toNat = added.size :=
    Block.toNat_size32_eq_iff.2 ((size_lt_of_insertAt h).trans (by decide))
  refine ⟨b, hdecode, hbytes, ?_, hcount, ?_, hadded, Block.toNat_size32_of_decode hdecode⟩
  · rw [← Block.shortfall_eq_zero_iff, hbytes]
    omega
  · rw [← Block.lonePrefixes_eq_zero_iff]
    constructor
    · rintro ⟨c, hc, hlen⟩
      have := hcount c hc
      omega
    · intro hnone
      obtain ⟨c, hc, hlen⟩ := Block.exists_decode_encode
        (Block.lonePrefixes_eq_zero_iff.1 (hprefixes.trans hnone))
        (Block.width_le_of_adapted hk.le hadapted hwidth)
      exact ⟨c, hcode ▸ hc, by omega⟩

/-- The operand of the second instruction needs a word more than is stated, and the first one is read
as the highest byte of that operand. -/
theorem exists_unaccounted : ∃ e,
    insertAt (Block.encode [.bare .returnValue]) [⟨.extendedArg, 5, 1⟩, ⟨.loadConst, 300, 1⟩] 0 =
      .ok e ∧
    (e.code.length : Int) ≠ (Block.encode [.bare .returnValue]).length + e.sizeDelta ∧
    ¬ ∃ c, Block.decode e.code = .ok c ∧ c.length = 3 := by
  have hinsert : insertAt (Block.encode [.bare .returnValue])
      [⟨.extendedArg, 5, 1⟩, ⟨.loadConst, 300, 1⟩] 0 = .ok ⟨Block.encode
        [⟨.extendedArg, 5, 1⟩, ⟨.loadConst, 300, 1⟩, .bare .returnValue], [.before 0 4], []⟩ :=
    insertAt_eq_ok_iff.2 ⟨_, ⟨[.fresh ⟨.extendedArg, 5, 1⟩, .fresh ⟨.loadConst, 300, 1⟩,
        .ofPlaced (.bare .returnValue) 0], .before 0 4, []⟩,
      Block.ofCode_eq_ok_iff.2 ⟨Block.decode_encode (by decide), by decide⟩, by decide,
      Block.finish_eq_ok_iff.2 ⟨_, rfl, rfl, by decide, rfl, rfl⟩⟩
  obtain ⟨b, hdecode, -, hbytes, -, hcount, -⟩ := insertAt_account hinsert (by decide)
  cases (Block.decode_encode (by decide : ∀ i ∈ [Instruction.bare .returnValue],
    i.Encodable)).symm.trans hdecode
  exact ⟨_, hinsert, fun hsame => absurd (hbytes.1 hsame) (by decide),
    fun hread => absurd (hcount.1 hread) (by decide)⟩

end Insert

end Tripwire
