import Tripwire.Block.Binary
import Tripwire.Proofs.Outcome

/-!
# Reading code back

Code and blocks determine each other. What is read from code is written as the
same bytes, and instructions that code can hold are read back as they are.

* `Instruction.Encodable`: the instructions that code can hold as they are;
* `Block.decode_encode`, `Block.decode_encode_raised`: encodable instructions are read back, and
  those that are stated too narrow with the widths they need;
* `Block.encodable_of_decode`, `Block.encode_of_decode`, `Block.size_of_decode`: what is
  read is encodable, has the bytes it was read from, and is as long as they are.

The reader meets the words of an operand one by one. `carrierWords` are those
that it has behind it when it comes to the opcode.
-/

namespace Tripwire

/-- The instructions that code can hold as they are: wide enough for the operand, not too wide, and
no `extendedArg` of their own. -/
structure Instruction.Encodable (i : Instruction) : Prop where
  ne_extendedArg : i.opcode ≠ .extendedArg
  fits : minimalWidth i.operand ≤ i.width
  width_le : i.width ≤ maximalWidth

instance (i : Instruction) : Decidable i.Encodable :=
  decidable_of_iff
    (i.opcode ≠ .extendedArg ∧ minimalWidth i.operand ≤ i.width ∧ i.width ≤ maximalWidth)
    ⟨fun ⟨h₁, h₂, h₃⟩ => ⟨h₁, h₂, h₃⟩, fun ⟨h₁, h₂, h₃⟩ => ⟨h₁, h₂, h₃⟩⟩

namespace Instruction.Encodable

variable {i : Instruction}

theorem one_le_width (h : i.Encodable) : 1 ≤ i.width :=
  le_trans (one_le_minimalWidth _) h.fits

theorem size_pos (h : i.Encodable) : 0 < i.size := by
  have := h.one_le_width
  simp only [Instruction.size, wordSize]
  omega

theorem encodedWidth_eq (h : i.Encodable) : i.encodedWidth = i.width :=
  max_eq_left h.fits

theorem narrow {op : Opcode} (h : op ≠ .extendedArg) (arg : UInt32) :
    (Instruction.narrow op arg).Encodable :=
  ⟨h, le_rfl, minimalWidth_le_four arg⟩

end Instruction.Encodable

/-- The instruction with the width that it is written with. -/
def Instruction.raised (i : Instruction) : Instruction := { i with width := i.encodedWidth }

theorem Instruction.encodedWidth_raised (i : Instruction) : i.raised.encodedWidth = i.encodedWidth :=
  max_eq_left (le_max_right _ _)

theorem Instruction.Encodable.raised {i : Instruction} (h : i.opcode ≠ .extendedArg)
    (hwidth : i.width ≤ maximalWidth) : i.raised.Encodable :=
  ⟨h, le_max_right _ _, max_le hwidth (minimalWidth_le_four _)⟩

/-! ### Operands byte by byte -/

/-- The words that carry the `count` lowest bytes of an operand. -/
def carrierWords (operand : UInt32) : Nat → List Word
  | 0 => []
  | count + 1 =>
    (Opcode.byte .extendedArg, UInt8.ofNat (operand.toNat >>> (8 * count))) ::
      carrierWords operand count

/-- Reading a word moves the operand up by one byte. -/
theorem toNat_pushByte {operand : UInt32} (low : UInt8) (h : operand.toNat < 0x1000000) :
    (operand <<< 8 ||| low.toUInt32).toNat = operand.toNat * 256 + low.toNat := by
  have hlow := low.toNat_lt
  have hshift : (operand <<< 8).toNat = operand.toNat <<< 8 := by
    rw [UInt32.toNat_shiftLeft]
    have : operand.toNat <<< 8 < 2 ^ 32 := by
      rw [Nat.shiftLeft_eq]
      omega
    exact Nat.mod_eq_of_lt this
  rw [UInt32.toNat_or, hshift, UInt8.toNat_toUInt32,
    ← Nat.shiftLeft_add_eq_or_of_lt (by omega : low.toNat < 2 ^ 8), Nat.shiftLeft_eq]

/-- A byte that has been read is the last one carried. -/
theorem carrierWords_pushByte {operand : UInt32} (low : UInt8) (h : operand.toNat < 0x1000000)
    (count : Nat) :
    carrierWords (operand <<< 8 ||| low.toUInt32) (count + 1) =
      carrierWords operand count ++ [(Opcode.byte .extendedArg, low)] := by
  have hpush := toNat_pushByte low h
  have hlow := low.toNat_lt
  induction count with
  | zero =>
    have : UInt8.ofNat (operand.toNat * 256 + low.toNat) = low := by
      apply UInt8.toNat_inj.1
      rw [UInt8.toNat_ofNat']
      omega
    simp [carrierWords, hpush, this]
  | succ count ih =>
    rw [carrierWords, ih, carrierWords, List.cons_append, hpush]
    congr 3
    rw [show 8 * (count + 1) = 8 + 8 * count by ring, Nat.shiftRight_add]
    congr 1
    rw [Nat.shiftRight_eq_div_pow]
    omega

/-- The words in front of an opcode carry the operand without its lowest byte. -/
theorem prefixWords_eq_carrierWords (i : Instruction) (count : Nat) :
    i.prefixWords count = carrierWords (i.operand >>> 8) count := by
  induction count with
  | zero => rfl
  | succ count ih =>
    rw [Instruction.prefixWords, carrierWords, ih, Instruction.operandByte]
    congr 3
    rw [show 8 * (count + 1) = 8 + 8 * count by ring, Nat.shiftRight_add,
      UInt32.toNat_shiftRight]
    rfl

theorem toNat_shiftRight_eight (operand : UInt32) :
    (operand >>> 8).toNat = operand.toNat / 256 := by
  rw [UInt32.toNat_shiftRight, Nat.shiftRight_eq_div_pow]
  rfl

/-- An operand is its upper bytes with the lowest one pushed. -/
theorem pushByte_shiftRight (operand : UInt32) :
    operand >>> 8 <<< 8 ||| (UInt8.ofNat (operand.toNat >>> (8 * 0))).toUInt32 = operand := by
  have hbound := operand.toNat_lt
  have hupper := toNat_shiftRight_eight operand
  apply UInt32.toNat_inj.1
  rw [toNat_pushByte _ (by omega), hupper, UInt8.toNat_ofNat']
  simp only [Nat.mul_zero, Nat.shiftRight_zero]
  omega

/-- An operand below `256 ^ width` fits `width` words. -/
theorem minimalWidth_le_of_lt {operand : UInt32} {width : Nat} (h : operand.toNat < 256 ^ width)
    (h1 : 1 ≤ width) (h4 : width ≤ 4) : minimalWidth operand ≤ width := by
  refine (minimalWidth_le_iff h1 h4).2 ?_
  rw [Nat.shiftRight_eq_div_pow, Nat.pow_mul]
  exact Nat.div_eq_of_lt h

namespace Block

/-! ### Encoded blocks are read back -/

/-- The upper bytes of an operand with the next one pushed. -/
theorem pushByte_upper (operand : UInt32) (count : Nat) (h : operand.toNat < 0x1000000) :
    UInt32.ofNat (operand.toNat >>> (8 * (count + 1))) <<< 8 |||
        (UInt8.ofNat (operand.toNat >>> (8 * count))).toUInt32 =
      UInt32.ofNat (operand.toNat >>> (8 * count)) := by
  have hle : operand.toNat >>> (8 * count) ≤ operand.toNat := Nat.shiftRight_le _ _
  have hupper : operand.toNat >>> (8 * (count + 1)) = operand.toNat >>> (8 * count) / 256 := by
    rw [show 8 * (count + 1) = 8 * count + 8 by ring, Nat.shiftRight_add,
      Nat.shiftRight_eq_div_pow _ 8]
  have hnat : (UInt32.ofNat (operand.toNat >>> (8 * (count + 1)))).toNat =
      operand.toNat >>> (8 * count) / 256 := by
    rw [hupper]
    exact UInt32.toNat_ofNat_of_lt' (by simp only [UInt32.size]; omega)
  apply UInt32.toNat_inj.1
  rw [toNat_pushByte _ (by omega), hnat, UInt8.toNat_ofNat',
    UInt32.toNat_ofNat_of_lt'
      (by simp only [UInt32.size]; omega : operand.toNat >>> (8 * count) < UInt32.size)]
  omega

/-- The words in front of the opcode leave the upper bytes of the operand with the reader. -/
theorem decodeWords_carrierWords {start width : Nat} {operand : UInt32} (rest : List Word)
    (count : Nat) (h : width + count ≤ 3) (hbound : operand.toNat < 0x1000000) :
    decodeWords start (UInt32.ofNat (operand.toNat >>> (8 * count))) width
        (carrierWords operand count ++ rest) =
      decodeWords start operand (width + count) rest := by
  induction count generalizing width with
  | zero => simp [carrierWords]
  | succ count ih =>
    have hroom : ¬ maximalWidth ≤ width := by simp only [maximalWidth]; omega
    rw [carrierWords, List.cons_append, decodeWords]
    simp only [Opcode.ofByte?_byte, if_neg hroom, if_true, pushByte_upper operand count hbound]
    rw [ih (by omega), show width + 1 + count = width + (count + 1) by omega]

theorem decodeWords_words {i : Instruction} (h : i.Encodable) (start : Nat) (rest : List Word) :
    decodeWords start 0 0 (i.words ++ rest) =
      (decodeWords (start + i.size) 0 0 rest).map (i :: ·) := by
  have hwidth := h.one_le_width
  have hle := h.width_le
  simp only [maximalWidth] at hle
  have hbound : (i.operand >>> 8).toNat < 0x1000000 := by
    have := i.operand.toNat_lt
    rw [toNat_shiftRight_eight]
    omega
  -- The empty operand is that of a reader ahead of all the bytes carried.
  have hempty : (0 : UInt32) = UInt32.ofNat ((i.operand >>> 8).toNat >>> (8 * (i.width - 1))) := by
    have hzero := (minimalWidth_le_iff hwidth hle).1 h.fits
    rw [UInt32.toNat_shiftRight, ← Nat.shiftRight_add,
      show (8 : UInt32).toNat % 32 + 8 * (i.width - 1) = 8 * i.width by
        simp only [UInt32.reduceToNat]; omega, hzero]
    rfl
  have hroom : ¬ maximalWidth ≤ 0 + (i.width - 1) := by simp only [maximalWidth]; omega
  rw [Instruction.words, h.encodedWidth_eq, prefixWords_eq_carrierWords, List.append_assoc,
    List.singleton_append, hempty, decodeWords_carrierWords _ _ (by omega) hbound, ← hempty,
    decodeWords]
  have hi : (⟨i.opcode, i.operand, 0 + (i.width - 1) + 1⟩ : Instruction) = i := by
    rw [show 0 + (i.width - 1) + 1 = i.width by omega]
  simp only [Opcode.ofByte?_byte, if_neg hroom, h.ne_extendedArg, if_false,
    Instruction.operandByte, pushByte_shiftRight, hi]

theorem decodeWords_words_of_encodable {b : Block} (h : ∀ i ∈ b, i.Encodable) (start : Nat) :
    decodeWords start 0 0 (words b) = .ok b := by
  induction b generalizing start with
  | nil => simp [decodeWords]
  | cons i b ih =>
    rw [words_cons, decodeWords_words (h i (List.mem_cons_self ..)),
      ih fun j hj => h j (List.mem_cons_of_mem _ hj)]
    rfl

theorem length_encode (b : Block) : (encode b).length = (words b).length * wordSize :=
  length_bytesOf _

/-- Encodable instructions are read back as they are. -/
theorem decode_encode {b : Block} (h : ∀ i ∈ b, i.Encodable) : decode (encode b) = .ok b := by
  have heven : (encode b).length % wordSize = 0 := by
    rw [length_encode]
    exact Nat.mul_mod_left _ _
  rw [decode, if_pos heven, encode, wordsOf_bytesOf, decodeWords_words_of_encodable h]

/-! ### Too narrow instructions are raised -/

/-- The words of an instruction do not tell the width stated from the one it is written with. -/
theorem words_raised (i : Instruction) : i.raised.words = i.words := by
  rw [Instruction.words, Instruction.words, i.encodedWidth_raised,
    prefixWords_eq_carrierWords, prefixWords_eq_carrierWords]
  rfl

theorem encode_map_raised (b : Block) : encode (b.map Instruction.raised) = encode b := by
  rw [encode, encode, words, words, List.flatMap_map]
  exact congrArg bytesOf (List.flatMap_congr fun i _ => words_raised i)

theorem decode_encode_eq_map_raised {b : Block}
    (h : ∀ i ∈ b, i.opcode ≠ .extendedArg ∧ i.width ≤ maximalWidth) :
    decode (encode b) = .ok (b.map Instruction.raised) := by
  have hencodable : ∀ i ∈ b.map Instruction.raised, i.Encodable := by
    intro i hi
    obtain ⟨j, hj, rfl⟩ := List.mem_map.1 hi
    exact .raised (h j hj).1 (h j hj).2
  rw [← encode_map_raised, decode_encode hencodable]

/-- Instructions are read back with the widths they are written with: as stated where the operand
fits, and else as the operand needs. -/
theorem decode_encode_raised {b : Block}
    (h : ∀ i ∈ b, i.opcode ≠ .extendedArg ∧ i.width ≤ maximalWidth) :
    decode (encode b) =
      .ok (b.map fun i => { i with width := max i.width (minimalWidth i.operand) }) :=
  decode_encode_eq_map_raised h

/-- The first operand needs a second word, and the last one keeps a word it does not need. -/
theorem exists_decode_encode_raised :
    (∀ i ∈ [⟨.loadFast, 300, 1⟩, .bare .nop, ⟨.loadConst, 5, 2⟩],
      Instruction.opcode i ≠ .extendedArg ∧ i.width ≤ maximalWidth) ∧
    decode (encode [⟨.loadFast, 300, 1⟩, .bare .nop, ⟨.loadConst, 5, 2⟩]) =
      .ok [⟨.loadFast, 300, 2⟩, .bare .nop, ⟨.loadConst, 5, 2⟩] :=
  have h : ∀ i ∈ [⟨.loadFast, 300, 1⟩, .bare .nop, ⟨.loadConst, 5, 2⟩],
      Instruction.opcode i ≠ .extendedArg ∧ i.width ≤ maximalWidth := by
    decide
  ⟨h, decode_encode_raised h⟩

/-! ### The length of code -/

/-- Instructions that are wide enough take the bytes that their widths say. -/
theorem length_encode_of_fits {b : Block} (h : ∀ i ∈ b, minimalWidth i.operand ≤ i.width) :
    (encode b).length = b.size := by
  rw [length_encode]
  induction b with
  | nil => rfl
  | cons i b ih =>
    have hwidth : i.encodedWidth = i.width := max_eq_left (h i (List.mem_cons_self ..))
    rw [words_cons, List.length_append, Instruction.length_words, hwidth, size_cons, Nat.add_mul,
      ih fun j hj => h j (List.mem_cons_of_mem _ hj), Instruction.size]

theorem length_encode_of_encodable {b : Block} (h : ∀ i ∈ b, i.Encodable) :
    (encode b).length = b.size :=
  length_encode_of_fits fun i hi => (h i hi).fits

/-- The code of any block is at least as long as the widths say. -/
theorem size_le_length_encode (b : Block) : b.size ≤ (encode b).length := by
  rw [length_encode]
  induction b with
  | nil => exact le_rfl
  | cons i b ih =>
    rw [words_cons, List.length_append, Instruction.length_words, size_cons, Nat.add_mul]
    exact Nat.add_le_add (Nat.mul_le_mul_right _ (le_max_left _ _)) ih

/-! ### What is read has the bytes it was read from -/

/-- Reading leaves nothing out: the instructions read have the words that were left, behind those
that the reader had met, and each of them is encodable. -/
theorem decodeWords_sound {start width : Nat} {operand : UInt32} {ws : List Word} {b : Block}
    (h : decodeWords start operand width ws = .ok b) (hbound : operand.toNat < 256 ^ width)
    (hwidth : width ≤ 4) :
    words b = carrierWords operand width ++ ws ∧ ∀ i ∈ b, i.Encodable := by
  induction ws generalizing start width operand b with
  | nil =>
    rw [decodeWords] at h
    split at h
    · rename_i hzero
      cases h
      simp [hzero, carrierWords]
    · cases h
  | cons w ws ih =>
    obtain ⟨code, low⟩ := w
    rw [decodeWords] at h
    split at h
    · cases h
    rename_i opcode hop
    split at h
    · cases h
    rename_i hroom
    simp only [maximalWidth, Nat.not_le] at hroom
    have hcode := Opcode.ofByte?_eq_some_iff.1 hop
    have hsmall : operand.toNat < 0x1000000 :=
      lt_of_lt_of_le hbound (Nat.pow_le_pow_right (by decide) (by omega : width ≤ 3))
    have hpushed := toNat_pushByte low hsmall
    have hlow := low.toNat_lt
    have hnext : (operand <<< 8 ||| low.toUInt32).toNat < 256 ^ (width + 1) := by
      rw [hpushed, Nat.pow_succ]
      omega
    -- A word in front of an opcode joins those met before it, any other closes an instruction.
    split at h
    · rename_i hext
      obtain ⟨hwords, hall⟩ := ih h hnext (by omega)
      rw [carrierWords_pushByte low hsmall, List.append_assoc] at hwords
      subst hext hcode
      exact ⟨hwords, hall⟩
    · rename_i hext
      simp only at h
      obtain ⟨b', hb', rfl⟩ := map_eq_ok_iff.1 h
      obtain ⟨hwords, hall⟩ := ih hb' (by decide) (by omega)
      have hread : Instruction.Encodable ⟨opcode, operand <<< 8 ||| low.toUInt32, width + 1⟩ :=
        ⟨hext, minimalWidth_le_of_lt hnext (Nat.le_add_left 1 width) (Nat.succ_le_of_lt hroom),
          Nat.succ_le_of_lt hroom⟩
      refine ⟨?_, fun i hi => ?_⟩
      · have hcarried : (operand <<< 8 ||| low.toUInt32) >>> 8 = operand := by
          apply UInt32.toNat_inj.1
          rw [toNat_shiftRight_eight, hpushed]
          omega
        have hlast : UInt8.ofNat ((operand <<< 8 ||| low.toUInt32).toNat >>> (8 * 0)) = low := by
          apply UInt8.toNat_inj.1
          rw [UInt8.toNat_ofNat', hpushed, Nat.mul_zero, Nat.shiftRight_zero]
          omega
        rw [words_cons, hwords, Instruction.words, hread.encodedWidth_eq,
          prefixWords_eq_carrierWords, hcarried, Instruction.operandByte, hlast, hcode,
          Nat.add_sub_cancel]
        simp [carrierWords]
      · rcases List.mem_cons.1 hi with rfl | hi
        · exact hread
        · exact hall i hi

variable {bytes : List UInt8} {b : Block}

theorem even_of_decode (h : decode bytes = .ok b) : bytes.length % wordSize = 0 := by
  by_contra hodd
  rw [decode, if_neg hodd] at h
  cases h

theorem words_of_decode (h : decode bytes = .ok b) :
    words b = wordsOf bytes ∧ ∀ i ∈ b, i.Encodable := by
  have heven := even_of_decode h
  rw [decode, if_pos heven] at h
  exact decodeWords_sound h (by decide) (by omega)

/-- Instructions that have been read are encodable. -/
theorem encodable_of_decode (h : decode bytes = .ok b) : ∀ i ∈ b, i.Encodable :=
  (words_of_decode h).2

/-- Instructions that have been read have the bytes they were read from. -/
theorem encode_of_decode (h : decode bytes = .ok b) : encode b = bytes := by
  rw [encode, (words_of_decode h).1, bytesOf_wordsOf bytes (even_of_decode h)]

/-- Instructions that have been read are as long as the bytes they were read from. -/
theorem size_of_decode (h : decode bytes = .ok b) : b.size = bytes.length := by
  rw [← length_encode_of_encodable (encodable_of_decode h), encode_of_decode h]

/-- Below the limit the length of what was read is told in full. -/
theorem toNat_size32_of_decode (h : decode bytes = .ok b) (hlimit : bytes.length < limit32) :
    b.size32.toNat = b.size :=
  toNat_size32_eq_iff.2 ((size_of_decode h).trans_lt hlimit)

/-- Below the limit the stated length of what is written is told in full. -/
theorem toNat_size32_of_encode (hlimit : (encode b).length < limit32) : b.size32.toNat = b.size :=
  toNat_size32_eq_iff.2 ((size_le_length_encode b).trans_lt hlimit)

end Block

end Tripwire
