import Tripwire.Proofs.Splice.Insertion
import Tripwire.Proofs.Splice.Removal
import Tripwire.Proofs.Splice.Route

/-!
# Nearest layouts

What relocation makes of a splice is the nearest layout in its direction: an
insertion makes the narrowest one, and a removal from tight code the widest. It does
not depend on where between the old widths and the new ones relocation begins.

* `Block.Laid.fitted`: layouts of an insertion are code that it can make;
* `Block.Laid.rebase`, `Block.Laid.advance`: layouts over another layout of the old code;
* `Block.Nearest`: the nearest layout;
* `Block.nearest_of_insertion`, `Block.nearest_of_removal`: what relocation makes;
* `exists_nearest_of_insertAt`, `exists_nearest_of_removeAt`: the edits on code;
* `Block.Nearest.eq_of_between`: the nearest layout over a layout in between.
-/

namespace Tripwire

namespace Block

variable {growing : Bool} {b r added c w : Block} {k count : Nat} {out : List Slot}
  {shifts : List Shift}

/-- A layout of an insertion is code that the insertion can make. -/
theorem Laid.fitted (hb : b.Valid) (ha : added.Addable) (h : Laid true b k 0 added c) :
    b.Fitted k added c where
  encodable i hi := by
    obtain ⟨i₀, hi₀, hsame⟩ := exists_of_mem_right h.resized hi
    have hencodable : i₀.Encodable :=
      (mem_of_mem_spliced hi₀).elim (hb.encodable i₀) (ha.encodable i₀)
    by_cases hjump : i.flow.isJump = true
    · have hstop := h.stops i hi hjump
      rw [toward_true] at hstop
      exact ⟨hsame.opcode_eq ▸ hencodable.ne_extendedArg, by exact_mod_cast hstop,
        (h.bounded i hi).2⟩
    · rwa [hsame.eq_of_not_isJump (by rw [← hsame.flow_eq]; simpa using hjump)]
  resized := h.resized
  widened := before_true.1 h.toward
  leadsTo j m hjm := h.leadsTo j m (stays_zero k j) hjm

theorem Fitted.valid (hb : b.Valid) (ha : added.Addable) (hk : k ≤ b.length)
    (h : b.Fitted k added c) : c.Valid where
  encodable := h.encodable
  steady i hi := by
    obtain ⟨i₀, hi₀, hsame⟩ := exists_of_mem_right h.resized hi
    rw [hsame.flow_eq]
    rcases mem_of_mem_spliced hi₀ with hi₀ | hi₀
    · exact hb.steady i₀ hi₀
    · simp [ha.flow_eq i₀ hi₀]
  closed := closed_of_spliced hb.closed ha hk h.resized fun j m _ hjm => h.leadsTo j m hjm

theorem Fitted.size_le_size (h : b.Fitted k added c) : b.size ≤ c.size :=
  (size_le_size_spliced_zero b k added).trans h.size_le

/-! ### Other layouts of the old code -/

section Rebase

variable (hresized : List.Forall₂ Instruction.Resized b r)
  (hleads : ∀ j m, b.LeadsTo j m → r.LeadsTo j m)
include hresized hleads

/-- A layout over code that lies in the direction of relocation is one over the code itself. -/
theorem Laid.rebase (htoward : Before growing b r) (h : Laid growing r k count added c) :
    Laid growing b k count added c where
  resized := resized_trans (forall₂_spliced (fun i _ => .refl i) k count hresized) h.resized
  toward := Before.trans (forall₂_spliced (fun _ _ => .refl growing _) k count htoward) h.toward
  leadsTo j m hj hjm := h.leadsTo j m hj (hleads j m hjm)
  stops := h.stops
  bounded := h.bounded

/-- A layout is one over all code that does not lie past it. -/
theorem Laid.advance (hb : b.Closed) (hr : r.Solid)
    (htoward : Before growing (r.spliced k count added) c)
    (h : Laid growing b k count added c) : Laid growing r k count added c where
  resized := resized_trans
    (forall₂_spliced (fun i _ => .refl i) k count (resized_symm hresized)) h.resized
  toward := htoward
  leadsTo j m hj hjm := h.leadsTo j m hj (leadsTo_of_resized hb hr hresized hleads hjm)
  stops := h.stops
  bounded := h.bounded

end Rebase

/-! ### The nearest layout -/

/-- The layout that no other one comes before in the direction of relocation. -/
structure Nearest (growing : Bool) (b : Block) (k count : Nat) (added c : Block) : Prop where
  laid : Laid growing b k count added c
  toward : ∀ d, Laid growing b k count added d → Before growing c d

/-- Relocation after an insertion makes the nearest layout. -/
theorem nearest_of_insertion (hb : b.Valid) (ha : added.Addable) (hk : k ≤ b.length)
    (hpos : 0 < added.size)
    (hrelocate : relocate (b.spliceShift k 0 added) (b.splicedSlots k 0 added) = .ok (out, shifts))
    (h : Relocated (b.spliceShift k 0 added) (b.splicedSlots k 0 added) out shifts)
    (hs : b.Spliced k 0 added (instructionsOf out) shifts) :
    Nearest true b k 0 added (instructionsOf out) where
  laid := laid_of_relocated hb.solid hk hpos h hs.valid.closed
  toward _ hc := hc.toward_of_relocate hb ha.placeable hk (b.spares_zero k)
    (growing_of_insertion b k hpos) hrelocate

/-- Relocation after a removal makes the nearest layout. -/
theorem nearest_of_removal (hb : b.Valid) (htight : b.Tight) (hk : k + count ≤ b.length)
    (hspares : b.Spares k count)
    (hrelocate : relocate (b.spliceShift k count []) (b.splicedSlots k count []) =
      .ok (out, shifts))
    (h : Relocated (b.spliceShift k count []) (b.splicedSlots k count []) out shifts)
    (hs : b.Spliced k count [] (instructionsOf out) shifts) :
    Nearest false b k count [] (instructionsOf out) where
  laid := by
    refine ⟨hs.resized, ?_, hs.leadsTo, fun i hi hjump => ?_, fun i hi => ?_⟩
    · have hleans := h.leans
      rw [not_growing_of_removal] at hleans
      have hwithin := within_of_shrinking hleans
      rw [instructionsOf_splicedSlots] at hwithin
      exact before_false.2 hwithin
    · rw [tight_of_relocate hb addable_nil hk htight hrelocate i hi hjump]
      exact .refl false _
    · have hencodable := hs.valid.encodable i hi
      exact ⟨hencodable.one_le_width, hencodable.width_le⟩
  toward _ hc := hc.toward_of_relocate hb addable_nil.placeable hk hspares
    (not_growing_of_removal b k count) hrelocate

/-- Two layouts of a splice that do not pass each other are the same. -/
theorem Laid.eq_of_toward {d : Block} (hb : b.Closed) (ha : added.Addable)
    (hk : k + count ≤ b.length) (hc : Laid growing b k count added c)
    (hd : Laid growing b k count added d)
    (hcd : Before growing c d) (hdc : Before growing d c) : d = c := by
  refine eq_of_routes (closed_of_spliced hb ha hk hc.resized hc.leadsTo)
    (resized_trans (resized_symm hc.resized) hd.resized) (hcd.width_eq hdc) fun l n hln => ?_
  obtain ⟨j, m, hj, hjm, rfl, rfl⟩ :=
    exists_of_leadsTo hb ha hk hc.resized hc.leadsTo hc.solid hln
  exact hd.leadsTo j m hj hjm

/-- Over code that lies between the old code and its nearest layout, the nearest layout is the
same. -/
theorem Nearest.eq_of_between {v : Block} (hb : b.Closed) (ha : added.Addable)
    (hk : k + count ≤ b.length) (hresized : List.Forall₂ Instruction.Resized b r)
    (hleads : ∀ j m, b.LeadsTo j m → r.LeadsTo j m) (hr : r.Solid)
    (hbr : Before growing b r) (hrw : Before growing (r.spliced k count added) w)
    (hw : Nearest growing b k count added w) (hv : Nearest growing r k count added v) : v = w := by
  have hwr := hw.laid.advance hresized hleads hb hr hrw
  have hvb := hv.laid.rebase hresized hleads hbr
  exact hw.laid.eq_of_toward hb ha hk hvb (hw.toward v hvb) (hv.toward w hwr)

end Block

section Edits

variable {code : List UInt8} {b added : Block} {k count : Nat} {e : Edit}

/-- A splice that succeeds makes the nearest layout. -/
theorem exists_nearest_of_insertAt (hdecode : Block.decode code = .ok b) (hb : b.Valid)
    (ha : added.Addable) (hpos : 0 < added.size) (hk : k < b.length)
    (h : insertAt code added (b.start k) = .ok e) :
    ∃ w, Block.decode e.code = .ok w ∧ e.code = w.encode ∧ (b.Tight → w.Tight) ∧
      b.Spliced k 0 added w e.shifts ∧ Block.Nearest true b k 0 added w := by
  obtain ⟨k', out, hk', hstart, -, hrelocate, hrelocated, hcode, hspliced⟩ :=
    exists_out_of_insertAt hdecode hb ha.encodable h
  obtain rfl := Block.start_inj hb.solid hk'.le hk.le hstart
  refine ⟨instructionsOf out, ?_, hcode,
    fun htight => Block.tight_of_relocate hb ha hk'.le htight hrelocate, hspliced,
    Block.nearest_of_insertion hb ha hk.le hpos hrelocate hrelocated hspliced⟩
  rw [hcode, Block.decode_encode hspliced.valid.encodable]

/-- A removal from tight code that succeeds makes the nearest layout. -/
theorem exists_nearest_of_removeAt (hdecode : Block.decode code = .ok b) (hb : b.Valid)
    (htight : b.Tight) (hk : k < b.length) (h : removeAt code (b.start k) count = .ok e) :
    ∃ w, Block.decode e.code = .ok w ∧ e.code = w.encode ∧ w.Tight ∧ k + count ≤ b.length ∧
      b.Spares k count ∧ b.Spliced k count [] w e.shifts ∧ Block.Nearest false b k count [] w := by
  obtain ⟨k', out, hk', hstart, hstop, hspares, hrelocate, hrelocated, hcode, -, hspliced⟩ :=
    exists_out_of_removeAt hdecode hb h
  obtain rfl := Block.start_inj hb.solid hk'.le hk.le hstart
  refine ⟨instructionsOf out, ?_, hcode,
    Block.tight_of_relocate hb Block.addable_nil hstop htight hrelocate, hstop, hspares, hspliced,
    Block.nearest_of_removal hb htight hstop hspares hrelocate hrelocated hspliced⟩
  rw [hcode, Block.decode_encode hspliced.valid.encodable]

end Edits

end Tripwire
