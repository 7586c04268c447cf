import Tripwire.Proofs.Splice.Exchange

/-!
# The order of splices

Two blocks can be spliced into code in either order, and two ranges can be taken out
in either order: the code that comes out is the same. Relocation makes the nearest
layout each time, from below while the code grows and from above while it shrinks.

* `Block.exists_fitted_twice`: code that two insertions can make;
* `exists_insertAt_twice`, `exists_of_removeAt_twice`: two edits in a row;
* `insertAt_comm`, `removeAt_comm`: two edits in either order;
* `insertAt_comm_of_length`: two splices, with a bound on the code that is there.
-/

namespace Tripwire

namespace Block

variable {b added a₁ a₂ c w : Block} {k count k₁ k₂ : Nat} {out : List Slot}
  {shifts : List Shift}

theorem admits_insertion (ha : added.Addable) (hk : k ≤ b.length) : Admits true b k 0 added where
  addable := ha
  le_length := hk
  spares := b.spares_zero k
  left j m _ hjm := by
    have hm := hjm.1
    unfold carry
    split <;> omega
  oneWay := by rw [if_pos rfl]

theorem fullSize_eq_of_resized (h : List.Forall₂ Instruction.Resized b c) :
    fullSize c = fullSize b := by
  induction h with
  | nil => rfl
  | cons hi _ ih =>
    rw [fullSize_cons, fullSize_cons, ih, Instruction.fullSize, Instruction.fullSize, hi.flow_eq]
    split
    · rfl
    · rename_i hjump
      rw [hi.eq_of_not_isJump (by simpa using hjump)]

/-- With jumps that are as wide as can be two blocks have their places. -/
theorem exists_fitted_twice (hb : b.Valid) (h₁ : a₁.Addable) (h₂ : a₂.Addable)
    (hk₁ : k₁ ≤ b.length) (hk₂ : k₂ ≤ b.length)
    (hroom : b.fullSize + a₁.size + a₂.size < limit32) :
    ∃ w c, b.Fitted k₁ a₁ w ∧ w.Fitted (carry k₁ 0 a₁.length k₂) a₂ c ∧
      c.size ≤ b.fullSize + a₁.size + a₂.size := by
  obtain ⟨w, hw, -⟩ := exists_fitted hb h₁ hk₁ (by omega)
  have hfull : fullSize w ≤ fullSize b + a₁.size := by
    rw [fullSize_eq_of_resized hw.resized]
    exact fullSize_spliced_le b k₁ 0 h₁
  have hplace : carry k₁ 0 a₁.length k₂ ≤ w.length := by
    rw [← hw.resized.length_eq, length_spliced a₁ hk₁, carry_zero]
    split <;> omega
  obtain ⟨c, hc, hsize⟩ := exists_fitted (hw.valid hb h₁ hk₁) h₂ hplace (by omega)
  exact ⟨w, c, hw, hc, by omega⟩

end Block

section Insert

variable {code : List UInt8} {b a₁ a₂ : Block} {k₁ k₂ : Nat}

/-- A block can be spliced in where there is room for it, which makes the nearest layout. -/
theorem exists_insertAt_nearest {added c : Block} {k : Nat} (hdecode : Block.decode code = .ok b)
    (hb : b.Valid) (ha : added.Addable) (hne : added ≠ []) (hadded : added.size < limit32 / 2)
    (hk : k < b.length) (hc : b.Fitted k added c) (hsize : c.size < limit32) :
    ∃ e w, insertAt code added (b.start k) = .ok e ∧ Block.decode e.code = .ok w ∧
      e.code = w.encode ∧ w.size < limit32 ∧ b.Spliced k 0 added w e.shifts ∧
      Block.Nearest true b k 0 added w := by
  have hpos := ha.placeable.size_pos hne
  obtain ⟨e, he⟩ := exists_insertAt hdecode hb ha hadded hk hc hsize
  obtain ⟨w, hw, hcode, -, hspliced, hnear⟩ := exists_nearest_of_insertAt hdecode hb ha hpos hk he
  have hwithin : Within c w := Block.before_true.1 (hnear.toward c hc.laid)
  exact ⟨e, w, he, hw, hcode, (Block.size_le_of_within hwithin).trans_lt hsize, hspliced, hnear⟩

/-- Two blocks can be spliced in one after the other where there is room for both. -/
theorem exists_insertAt_twice {w c : Block} (hdecode : Block.decode code = .ok b) (hb : b.Valid)
    (h₁ : a₁.Addable) (h₂ : a₂.Addable) (hne₁ : a₁ ≠ []) (hne₂ : a₂ ≠ [])
    (hsize₁ : a₁.size < limit32 / 2) (hsize₂ : a₂.size < limit32 / 2) (hk₁ : k₁ < b.length)
    (hk₂ : k₂ < b.length) (hw : b.Fitted k₁ a₁ w) (hc : w.Fitted (carry k₁ 0 a₁.length k₂) a₂ c)
    (hsize : c.size < limit32) :
    ∃ e e' v d, insertAt code a₁ (b.start k₁) = .ok e ∧
      insertAt e.code a₂ (Shift.image e.shifts (b.start k₂)).toNat = .ok e' ∧
      e'.code = d.encode ∧ d.Closed ∧ d.size < limit32 ∧ Block.Nearest true b k₁ 0 a₁ v ∧
      Block.Nearest true v (carry k₁ 0 a₁.length k₂) 0 a₂ d := by
  obtain ⟨e, v, he, hv, -, -, hspliced, hnear⟩ :=
    exists_insertAt_nearest hdecode hb h₁ hne₁ hsize₁ hk₁ hw (hc.size_le_size.trans_lt hsize)
  have hplace := hspliced.image_eq k₂ hk₂.le (by omega)
  have hlt : carry k₁ 0 a₁.length k₂ < v.length := by
    rw [← hspliced.resized.length_eq, Block.length_spliced a₁ hk₁.le, carry_zero]
    split <;> omega
  have hc' : v.Fitted (carry k₁ 0 a₁.length k₂) a₂ c :=
    (hnear.laid.of_between hb.closed (Block.admits_insertion h₁ hk₁.le) hw.laid
      (hnear.toward w hw.laid) hc.laid).fitted hspliced.valid h₂
  obtain ⟨e', d, he', -, hcode, hd, hspliced', hnear'⟩ :=
    exists_insertAt_nearest hv hspliced.valid h₂ hne₂ hsize₂ hlt hc' hsize
  refine ⟨e, e', v, d, he, ?_, hcode, hspliced'.valid.closed, hd, hnear, hnear'⟩
  rw [hplace, Int.toNat_natCast]
  exact he'

/-- The code with two blocks in different places is the same in either order. -/
theorem insertAt_comm_of_fitted {w c : Block} (hdecode : Block.decode code = .ok b) (hb : b.Valid)
    (h₁ : a₁.Addable) (h₂ : a₂.Addable) (hne₁ : a₁ ≠ []) (hne₂ : a₂ ≠ [])
    (hsize₁ : a₁.size < limit32 / 2) (hsize₂ : a₂.size < limit32 / 2) (hk₁ : k₁ < b.length)
    (hk₂ : k₂ < b.length) (hne : k₁ ≠ k₂) (hw : b.Fitted k₁ a₁ w)
    (hc : w.Fitted (carry k₁ 0 a₁.length k₂) a₂ c) (hsize : c.size < limit32) :
    ∃ e₁ e₁₂ e₂ e₂₁, insertAt code a₁ (b.start k₁) = .ok e₁ ∧
      insertAt e₁.code a₂ (Shift.image e₁.shifts (b.start k₂)).toNat = .ok e₁₂ ∧
      insertAt code a₂ (b.start k₂) = .ok e₂ ∧
      insertAt e₂.code a₁ (Shift.image e₂.shifts (b.start k₁)).toNat = .ok e₂₁ ∧
      e₁₂.code = e₂₁.code := by
  have hb32 : b.size < limit32 := (hw.size_le_size.trans hc.size_le_size).trans_lt hsize
  have hapart : Apart k₁ 0 k₂ 0 := ⟨hne, by omega⟩
  have hs₁ := Block.admits_insertion h₁ hk₁.le
  have hs₂ := Block.admits_insertion h₂ hk₂.le
  -- The same layout of both blocks can be made in the other order.
  obtain ⟨u, hu, hcu⟩ := Block.Laid.exchange hb hb32 hsize hapart hs₁ hs₂ hw.laid hc.laid
  have hfu := hu.fitted hb h₂
  obtain ⟨e₁, e₁₂, v, d, he₁, he₁₂, hd, hdclosed, hd32, hv, hvd⟩ :=
    exists_insertAt_twice hdecode hb h₁ h₂ hne₁ hne₂ hsize₁ hsize₂ hk₁ hk₂ hw hc hsize
  obtain ⟨e₂, e₂₁, v', d', he₂, he₂₁, hd', -, hd'32, hv', hvd'⟩ :=
    exists_insertAt_twice hdecode hb h₂ h₁ hne₂ hne₁ hsize₂ hsize₁ hk₂ hk₁ hfu
      (hcu.fitted (hfu.valid hb h₂ hk₂.le) h₁) hsize
  refine ⟨e₁, e₁₂, e₂, e₂₁, he₁, he₁₂, he₂, he₂₁, ?_⟩
  rw [hd, hd', Block.Nearest.comm hb hb32 hd32 hd'32 hdclosed hapart hs₁ hs₂ hv hvd hv' hvd']

/-- Two blocks can be spliced into valid code in front of different instructions in either order,
the second one in front of where its instruction has come, and the code is the same, as long as the
code with both of them, with its jumps as wide as they have to be, can be laid out within the 32-bit
range. -/
theorem insertAt_comm (hdecode : Block.decode code = .ok b)
    (hsteady : ∀ i ∈ b, i.flow ≠ .suspension) (hclosed : b.Closed) (h₁ : a₁.Addable)
    (h₂ : a₂.Addable) (hne₁ : a₁ ≠ []) (hne₂ : a₂ ≠ []) (hsize₁ : a₁.size < limit32 / 2)
    (hsize₂ : a₂.size < limit32 / 2) (hk₁ : k₁ < b.length) (hk₂ : k₂ < b.length) (hne : k₁ ≠ k₂)
    (hroom : ∃ w c, b.Fitted k₁ a₁ w ∧ w.Fitted (carry k₁ 0 a₁.length k₂) a₂ c ∧
      c.size < limit32) :
    ∃ e₁ e₁₂ e₂ e₂₁, insertAt code a₁ (b.start k₁) = .ok e₁ ∧
      insertAt e₁.code a₂ (Shift.image e₁.shifts (b.start k₂)).toNat = .ok e₁₂ ∧
      insertAt code a₂ (b.start k₂) = .ok e₂ ∧
      insertAt e₂.code a₁ (Shift.image e₂.shifts (b.start k₁)).toNat = .ok e₂₁ ∧
      e₁₂.code = e₂₁.code := by
  have hb : b.Valid := ⟨Block.encodable_of_decode hdecode, hsteady, hclosed⟩
  obtain ⟨w, c, hw, hc, hsize⟩ := hroom
  exact insertAt_comm_of_fitted hdecode hb h₁ h₂ hne₁ hne₂ hsize₁ hsize₂ hk₁ hk₂ hne hw hc hsize

/-- A jump over padded instructions, whose operand has room for a few bytes more. -/
def Block.paddedJump : Block :=
  ⟨.jumpAbsolute, 250, 1⟩ :: (List.replicate 31 ⟨.nop, 0, 4⟩ ++ [.bare .returnValue])

/-- Blocks can be spliced in front of a jump and in front of its target in either order. Whichever
comes second widens the jump. -/
theorem exists_insertAt_comm : ∃ e₁ e₁₂ e₂ e₂₁,
    insertAt (Block.encode .paddedJump) [.bare .nop] 0 = .ok e₁ ∧
      insertAt e₁.code [.bare .nop, .bare .nop] (Shift.image e₁.shifts 250).toNat = .ok e₁₂ ∧
      insertAt (Block.encode .paddedJump) [.bare .nop, .bare .nop] 250 = .ok e₂ ∧
      insertAt e₂.code [.bare .nop] (Shift.image e₂.shifts 0).toNat = .ok e₂₁ ∧
      e₁₂.code = e₂₁.code := by
  have hencodable : ∀ i ∈ Block.paddedJump, i.Encodable := by decide +kernel
  have hb : Block.Valid .paddedJump := ⟨hencodable, by decide +kernel, by decide +kernel⟩
  have h₁ : Block.Addable [.bare .nop] := by decide
  have h₂ : Block.Addable [.bare .nop, .bare .nop] := by decide
  have hk₁ : 0 < Block.paddedJump.length := by decide
  have hk₂ : 32 < Block.paddedJump.length := by decide
  have hroom : Block.paddedJump.fullSize + Block.size [.bare .nop] +
      Block.size [.bare .nop, .bare .nop] < limit32 := by decide +kernel
  obtain ⟨w, c, hw, hc, hsize⟩ := Block.exists_fitted_twice hb h₁ h₂ hk₁.le hk₂.le hroom
  have hcomm := insertAt_comm (Block.decode_encode hencodable) hb.steady hb.closed h₁ h₂
    (List.cons_ne_nil _ _) (List.cons_ne_nil _ _) (by decide) (by decide) hk₁ hk₂ (by decide)
    ⟨w, c, hw, hc, hsize.trans_lt hroom⟩
  have hstart : Block.paddedJump.start 32 = 250 := by decide +kernel
  rwa [Block.start_zero, hstart] at hcomm

/-- Whether there is room for both blocks can be told from the code that is there. -/
theorem insertAt_comm_of_length (hdecode : Block.decode code = .ok b)
    (hsteady : ∀ i ∈ b, i.flow ≠ .suspension) (hclosed : b.Closed) (h₁ : a₁.Addable)
    (h₂ : a₂.Addable) (hne₁ : a₁ ≠ []) (hne₂ : a₂ ≠ []) (hk₁ : k₁ < b.length)
    (hk₂ : k₂ < b.length) (hne : k₁ ≠ k₂)
    (hlength : maximalWidth * code.length + a₁.size + a₂.size < limit32 / 2) :
    ∃ e₁ e₁₂ e₂ e₂₁, insertAt code a₁ (b.start k₁) = .ok e₁ ∧
      insertAt e₁.code a₂ (Shift.image e₁.shifts (b.start k₂)).toNat = .ok e₁₂ ∧
      insertAt code a₂ (b.start k₂) = .ok e₂ ∧
      insertAt e₂.code a₁ (Shift.image e₂.shifts (b.start k₁)).toNat = .ok e₂₁ ∧
      e₁₂.code = e₂₁.code := by
  have hb : b.Valid := ⟨Block.encodable_of_decode hdecode, hsteady, hclosed⟩
  have hfull := Block.fullSize_le_of_solid hb.solid
  rw [Block.size_of_decode hdecode] at hfull
  obtain ⟨w, c, hw, hc, hsize⟩ := Block.exists_fitted_twice hb h₁ h₂ hk₁.le hk₂.le (by omega)
  exact insertAt_comm_of_fitted hdecode hb h₁ h₂ hne₁ hne₂ (by omega) (by omega) hk₁ hk₂ hne hw hc
    (by omega)

end Insert

section Remove

variable {code : List UInt8} {b : Block} {k k₁ k₂ count c₁ c₂ : Nat} {e e' : Edit}

/-- A removal that succeeds leaves every jump a target. -/
theorem Block.Spliced.admits {w : Block} {shifts : List Shift} (hpos : 0 < count)
    (hk : k + count ≤ b.length) (hspares : b.Spares k count)
    (h : b.Spliced k count [] w shifts) : Block.Admits false b k count [] := by
  refine ⟨Block.addable_nil, hk, hspares, fun j m hj hjm => ?_, ?_⟩
  · rw [← Block.length_spliced [] hk, h.resized.length_eq]
    exact (h.leadsTo j m hj hjm).1
  · rw [if_neg (by simp)]
    exact ⟨rfl, hpos⟩

/-- Two ranges that are taken out one after the other. -/
theorem exists_of_removeAt_twice (hdecode : Block.decode code = .ok b) (hb : b.Valid)
    (htight : b.Tight) (hpos₁ : 0 < c₁) (hpos₂ : 0 < c₂) (h : Apart k₁ c₁ k₂ c₂)
    (hk₁ : k₁ + c₁ ≤ b.length) (hk₂ : k₂ + c₂ ≤ b.length)
    (he : removeAt code (b.start k₁) c₁ = .ok e)
    (he' : removeAt e.code (Shift.image e.shifts (b.start k₂)).toNat c₂ = .ok e') :
    ∃ w c, e'.code = Block.encode c ∧ c.Closed ∧ c.size ≤ b.size ∧
      Block.Admits false b k₁ c₁ [] ∧ Block.Nearest false b k₁ c₁ [] w ∧
      Block.Nearest false w (carry k₁ c₁ 0 k₂) c₂ [] c := by
  obtain ⟨w, hw, -, hwtight, -, hspares, hspliced, hnear⟩ :=
    exists_nearest_of_removeAt hdecode hb htight (by omega) he
  have hplace : Shift.image e.shifts (b.start k₂) = w.start (carry k₁ c₁ 0 k₂) :=
    hspliced.image_eq k₂ (by omega) (by obtain ⟨-, h⟩ := h; omega)
  have hlt : carry k₁ c₁ 0 k₂ < w.length := by
    have hle : carry k₁ c₁ 0 k₂ + c₂ ≤ (b.spliced k₁ c₁ []).length :=
      Block.place_le_length h hk₁ hk₂ []
    rw [hspliced.resized.length_eq] at hle
    omega
  rw [hplace, Int.toNat_natCast] at he'
  obtain ⟨c, hc, hcode, -, -, -, hspliced', hnear'⟩ :=
    exists_nearest_of_removeAt hw hspliced.valid hwtight hlt he'
  have hsize : c.size ≤ b.size := by
    rw [Block.size_of_decode hc, Block.size_of_decode hdecode]
    exact (length_le_of_removeAt hw hspliced.valid he').trans
      (length_le_of_removeAt hdecode hb he)
  exact ⟨w, c, hcode, hspliced'.valid.closed, hsize, hspliced.admits hpos₁ hk₁ hspares, hnear,
    hnear'⟩

/-- When two ranges with no instruction in common can be taken out of valid code in either order,
the second one from where it has come, the code is the same, provided that no instruction is wider
than its operand needs. -/
theorem removeAt_comm {e₁ e₁₂ e₂ e₂₁ : Edit} (hdecode : Block.decode code = .ok b)
    (hminimal : ∀ i ∈ b, i.width = minimalWidth i.operand)
    (hsteady : ∀ i ∈ b, i.flow ≠ .suspension) (hclosed : b.Closed)
    (hsize : code.length < limit32 / 2) (hpos₁ : 0 < c₁) (hpos₂ : 0 < c₂)
    (hapart : k₁ + c₁ ≤ k₂ ∨ k₂ + c₂ ≤ k₁) (hk₁ : k₁ + c₁ ≤ b.length) (hk₂ : k₂ + c₂ ≤ b.length)
    (h₁ : removeAt code (b.start k₁) c₁ = .ok e₁)
    (h₁₂ : removeAt e₁.code (Shift.image e₁.shifts (b.start k₂)).toNat c₂ = .ok e₁₂)
    (h₂ : removeAt code (b.start k₂) c₂ = .ok e₂)
    (h₂₁ : removeAt e₂.code (Shift.image e₂.shifts (b.start k₁)).toNat c₁ = .ok e₂₁) :
    e₁₂.code = e₂₁.code := by
  have hb : b.Valid := ⟨Block.encodable_of_decode hdecode, hsteady, hclosed⟩
  have htight : b.Tight := fun i hi _ => hminimal i hi
  have hb32 : b.size < limit32 := by
    rw [Block.size_of_decode hdecode]
    exact hsize.trans (by decide)
  have h : Apart k₁ c₁ k₂ c₂ := ⟨by omega, hapart⟩
  obtain ⟨w, c, hc, hcclosed, hcsize, hs₁, hw, hwc⟩ :=
    exists_of_removeAt_twice hdecode hb htight hpos₁ hpos₂ h hk₁ hk₂ h₁ h₁₂
  obtain ⟨u, d, hd, -, hdsize, hs₂, hu, hud⟩ :=
    exists_of_removeAt_twice hdecode hb htight hpos₂ hpos₁ h.symm hk₂ hk₁ h₂ h₂₁
  rw [hc, hd, hw.comm hb hb32 (hcsize.trans_lt hb32) (hdsize.trans_lt hb32) hcclosed h hs₁ hs₂ hwc
    hu hud]

/-- A jump over two idle instructions. -/
def Block.idleJump : Block := [⟨.jumpAbsolute, 6, 1⟩, .bare .nop, .bare .nop, .bare .returnValue]

/-- The two idle instructions can be taken out in either order. -/
theorem exists_removeAt_comm : ∃ e₁ e₁₂ e₂ e₂₁,
    removeAt (Block.encode .idleJump) 2 1 = .ok e₁ ∧
      removeAt e₁.code (Shift.image e₁.shifts 4).toNat 1 = .ok e₁₂ ∧
      removeAt (Block.encode .idleJump) 4 1 = .ok e₂ ∧
      removeAt e₂.code (Shift.image e₂.shifts 2).toNat 1 = .ok e₂₁ ∧ e₁₂.code = e₂₁.code := by
  have hdecode : Block.decode (Block.encode .idleJump) = .ok .idleJump :=
    Block.decode_encode (by decide)
  have hdecode' : Block.decode (Block.encode [⟨.jumpAbsolute, 4, 1⟩, .bare .nop,
      .bare .returnValue]) = .ok [⟨.jumpAbsolute, 4, 1⟩, .bare .nop, .bare .returnValue] :=
    Block.decode_encode (by decide)
  have hclosed : Block.Closed [⟨.jumpAbsolute, 4, 1⟩, .bare .nop, .bare .returnValue] := by decide
  have hclosed' : Block.Closed [⟨.jumpAbsolute, 2, 1⟩, .bare .returnValue] := by decide
  have h₁ : removeAt (Block.encode .idleJump) 2 1 = .ok ⟨Block.encode [⟨.jumpAbsolute, 4, 1⟩,
      .bare .nop, .bare .returnValue], [.before 4 (-2)], [.bare .nop]⟩ :=
    removeAt_eq_ok_iff.2 ⟨_, _, Block.ofCode_eq_ok_iff.2 ⟨hdecode, by decide⟩, rfl,
      Block.finish_eq_ok_iff.2 ⟨_, rfl, rfl, hclosed, rfl, rfl⟩⟩
  have h₂ : removeAt (Block.encode .idleJump) 4 1 = .ok ⟨Block.encode [⟨.jumpAbsolute, 4, 1⟩,
      .bare .nop, .bare .returnValue], [.before 6 (-2)], [.bare .nop]⟩ :=
    removeAt_eq_ok_iff.2 ⟨_, _, Block.ofCode_eq_ok_iff.2 ⟨hdecode, by decide⟩, rfl,
      Block.finish_eq_ok_iff.2 ⟨_, rfl, rfl, hclosed, rfl, rfl⟩⟩
  have h' : removeAt (Block.encode [⟨.jumpAbsolute, 4, 1⟩, .bare .nop, .bare .returnValue]) 2 1 =
      .ok ⟨Block.encode [⟨.jumpAbsolute, 2, 1⟩, .bare .returnValue], [.before 4 (-2)],
        [.bare .nop]⟩ :=
    removeAt_eq_ok_iff.2 ⟨_, _, Block.ofCode_eq_ok_iff.2 ⟨hdecode', by decide⟩, rfl,
      Block.finish_eq_ok_iff.2 ⟨_, rfl, rfl, hclosed', rfl, rfl⟩⟩
  have hapart : 1 + 1 ≤ 2 ∨ 2 + 1 ≤ 1 := .inl le_rfl
  exact ⟨_, _, _, _, h₁, h', h₂, h', removeAt_comm hdecode (by decide) (by decide) (by decide)
    (by decide) Nat.one_pos Nat.one_pos hapart (by decide) (by decide) h₁ h' h₂ h'⟩

end Remove

end Tripwire
