import Tripwire.Proofs.Block.Position
import Tripwire.Proofs.Block.RoundTrip

/-!
# The bytes of each instruction

Code that can be read is the bytes of its instructions, one after the other. The
width of an instruction tells how many of them are its own, padding included, so
writing what was read changes nothing.

* `Block.length_encode_take`: the instructions before an index end at its offset;
* `Block.take_drop_encode`, `Block.take_drop_of_decode`: the bytes at the offset of an instruction;
* `Block.encode_slice_of_decode`: what is read is written back, as a whole and at each offset.
-/

namespace Tripwire.Block

variable {b : Block} {bytes : List UInt8} {k : Nat} {i : Instruction}

theorem length_encode_take (h : ∀ i ∈ b, i.Encodable) (k : Nat) :
    (encode (b.take k)).length = start b k :=
  length_encode_of_encodable fun i hi => h i (List.mem_of_mem_take hi)

/-- An instruction has the bytes from its offset on, as many as it is wide. -/
theorem take_drop_encode (h : ∀ i ∈ b, i.Encodable) (hi : b[k]? = some i) :
    ((encode b).drop (start b k)).take i.size = encode [i] := by
  have hlength : (encode [i]).length = i.size := by
    have hone : ∀ j ∈ [i], j.Encodable := by
      simpa using h i (List.mem_of_getElem? hi)
    simpa using length_encode_of_encodable hone
  obtain ⟨hk, rfl⟩ := List.getElem?_eq_some_iff.1 hi
  have hsplit : encode b = encode (b.take k) ++ (encode [b[k]] ++ encode (b.drop (k + 1))) := by
    rw [← encode_append, ← encode_append, List.singleton_append, List.getElem_cons_drop,
      List.take_append_drop]
  rw [hsplit, List.drop_left' (length_encode_take h k), List.take_left' hlength]

theorem take_drop_of_decode (h : decode bytes = .ok b) (hi : b[k]? = some i) :
    (bytes.drop (start b k)).take i.size = encode [i] := by
  rw [← encode_of_decode h]
  exact take_drop_encode (encodable_of_decode h) hi

/-- Writing what was read gives back the bytes, as many as the widths say, and each instruction is
written as the bytes at its own offset. The length that is told is the number of bytes in 32 bits,
and so the number itself exactly when it is below the limit. -/
theorem encode_slice_of_decode (h : decode bytes = .ok b) :
    encode b = bytes ∧ b.size = bytes.length ∧ b.size32 = UInt32.ofNat bytes.length ∧
      (b.size32.toNat = bytes.length ↔ bytes.length < limit32) ∧
      ∀ k i, b[k]? = some i → (bytes.drop (start b k)).take i.size = encode [i] := by
  have hsize := size_of_decode h
  refine ⟨encode_of_decode h, hsize, ?_, ?_, fun k i hi => take_drop_of_decode h hi⟩
  · rw [size32_eq, hsize]
  · rw [← hsize]
    exact toNat_size32_eq_iff

/-- An operand that would fit one word stays on two. -/
theorem exists_slice_padded : ∃ b, decode [0x00, 0x00, 0x7F, 0x00, 0x10, 0x05] = .ok b ∧
    encode b = [0x00, 0x00, 0x7F, 0x00, 0x10, 0x05] ∧ b.size32.toNat = 6 ∧
      encode [⟨.loadConst, 5, 2⟩] = [0x7F, 0x00, 0x10, 0x05] := by
  have h : decode [0x00, 0x00, 0x7F, 0x00, 0x10, 0x05] =
      .ok [.bare .nop, ⟨.loadConst, 5, 2⟩] := by
    decide
  obtain ⟨hencode, -, -, hsize, hslice⟩ := encode_slice_of_decode h
  exact ⟨_, h, hencode, hsize.2 (by decide), (hslice 1 ⟨.loadConst, 5, 2⟩ rfl).symm⟩

end Tripwire.Block
