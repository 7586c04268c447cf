import Tripwire.Proofs.Splice.Faithful

/-!
# Relocation after a splice succeeds

A limit of relocation is found by fixing the width of every jump, at the greatest
one while the code grows and at the least one while it shrinks. The operands
that the jumps then have to have are distances in a block of bounded size, so
they are in range.

* `Slot.refit`, `pinned`: fixed widths with the operands that belong to them;
* `Block.fullSize`: the size of a block whose jumps are as wide as can be;
* `Block.limit_pinned`: relocation after a splice has a limit;
* `Block.exists_finish`: the edit succeeds.
-/

namespace Tripwire

/-! ### Operands for given widths -/

namespace Slot

/-- The origin and target of a jump of the old code. -/
def jump? (s : Slot) : Option (Origin × Nat) :=
  if s.instruction.flow.isJump then s.origin.bind fun o => o.target.map fun t => (o, t) else none

theorem jump?_eq_some_iff {s : Slot} {o : Origin} {t : Nat} :
    s.jump? = some (o, t) ↔ s.Jumps o t := by
  unfold jump?
  constructor
  · intro h
    split at h
    · rename_i hjump
      obtain ⟨o', ho, h⟩ := Option.bind_eq_some_iff.1 h
      obtain ⟨t', ht, heq⟩ := Option.map_eq_some_iff.1 h
      cases heq
      exact ⟨hjump, ho, ht⟩
    · cases h
  · rintro ⟨hjump, ho, ht⟩
    simp [hjump, ho, ht]

/-- The slot with a given operand and width, if it is a jump of the old code. -/
def refit (s : Slot) (operand : Origin → Nat → UInt32) (width : Nat) : Slot :=
  match s.jump? with
  | none => s
  | some (o, t) => ⟨⟨s.instruction.opcode, operand o t, width⟩, s.origin⟩

theorem refit_of_jumps {s : Slot} {o : Origin} {t : Nat} (h : s.Jumps o t)
    (operand : Origin → Nat → UInt32) (width : Nat) :
    s.refit operand width = ⟨⟨s.instruction.opcode, operand o t, width⟩, s.origin⟩ := by
  rw [refit, jump?_eq_some_iff.2 h]

theorem follows_refit (s : Slot) (operand : Origin → Nat → UInt32) (width : Nat) :
    s.Follows (s.refit operand width) := by
  cases hjump : s.jump? with
  | none =>
    rw [refit, hjump]
    exact .refl s
  | some p =>
    have hj := jump?_eq_some_iff.1 hjump
    rw [refit_of_jumps hj]
    exact ⟨rfl, rfl, fun hn => absurd hj (hn p.1 p.2)⟩

end Slot

/-- Slots with every jump at one width and with the operand that it then has to have. -/
def pinned (primary : Shift) (width : Nat) (slots : List Slot) : List Slot :=
  let sized := slots.map fun s => s.refit (fun _ _ => s.instruction.operand) width
  slots.map fun s =>
    s.refit (fun o t => UInt32.ofNat (Slot.demand primary sized s.instruction.flow o t).toNat) width

section Pinned

variable {primary : Shift} {width : Nat} {slots : List Slot}

theorem width_refit (s : Slot) (operand operand' : Origin → Nat → UInt32) (width : Nat) :
    (s.refit operand width).instruction.width = (s.refit operand' width).instruction.width := by
  unfold Slot.refit
  split <;> rfl

/-- The operands do not matter for what jumps demand. -/
theorem swell_pinned (q : Site) :
    swell q (pinned primary width slots) =
      swell q (slots.map fun s => s.refit (fun _ _ => s.instruction.operand) width) := by
  have hgrowth : ∀ (l : List Slot) (f g : Slot → Origin → Nat → UInt32),
      swell q (l.map fun s => s.refit (f s) width) =
        swell q (l.map fun s => s.refit (g s) width) := by
    intro l f g
    induction l with
    | nil => rfl
    | cons s l ih =>
      rw [List.map_cons, List.map_cons, swell_cons, swell_cons, ih]
      congr 1
      unfold Slot.growth Instruction.size
      rw [(s.follows_refit (f s) width).origin_eq, (s.follows_refit (g s) width).origin_eq,
        width_refit s (f s) (g s)]
  exact hgrowth slots _ _

/-- Jumps at one width are settled when what they demand is in range. -/
theorem settled_pinned
    (h : ∀ s ∈ slots, ∀ o t, s.Jumps o t →
      0 ≤ Slot.demand primary (pinned primary width slots) s.instruction.flow o t ∧
        Slot.demand primary (pinned primary width slots) s.instruction.flow o t < limit32) :
    Settled primary (pinned primary width slots) := by
  intro s' hs' o t hj'
  have hs'' := hs'
  rw [pinned, List.mem_map] at hs''
  obtain ⟨s, hs, rfl⟩ := hs''
  have hfollows := s.follows_refit (fun o t => UInt32.ofNat (Slot.demand primary
    (slots.map fun s => s.refit (fun _ _ => s.instruction.operand) width)
    s.instruction.flow o t).toNat) width
  have hj : s.Jumps o t := hfollows.jumps_iff.1 hj'
  have hsame : Slot.demand primary (slots.map fun s =>
      s.refit (fun _ _ => s.instruction.operand) width) s.instruction.flow o t =
      Slot.demand primary (pinned primary width slots) s.instruction.flow o t := by
    rw [Slot.demand, Slot.demand, swell_pinned]
  obtain ⟨hnonneg, hlt⟩ := h s hs o t hj
  rw [hfollows.flow_eq, Slot.refit_of_jumps hj, hsame]
  simp only
  rw [UInt32.toNat_ofNat_of_lt' (by simp only [UInt32.size]; simp only [limit32] at hlt; omega)]
  omega

end Pinned

/-! ### Sizes -/

/-- The size of an instruction that is as wide as can be, if it is a jump. -/
def Instruction.fullSize (i : Instruction) : Nat :=
  if i.flow.isJump then maximalWidth * wordSize else i.size

theorem Instruction.size_le_fullSize {i i' : Instruction} (h : i.Resized i')
    (hw : i'.width ≤ maximalWidth) : i'.size ≤ i.fullSize := by
  unfold fullSize
  split
  · exact Nat.mul_le_mul_right _ hw
  · rename_i hjump
    rw [h.eq_of_not_isJump (by simpa using hjump)]

/-- The number that lies furthest in the direction of relocation among the widths. -/
def extreme (growing : Bool) : Nat := if growing then maximalWidth else 1

theorem extreme_bounded (growing : Bool) :
    1 ≤ extreme growing ∧ extreme growing ≤ maximalWidth := by
  cases growing <;> decide

/-- No operand drives a jump past the extreme width. -/
theorem minimalWidth_toward_extreme (growing : Bool) (operand : UInt32) :
    Toward growing (minimalWidth operand) (extreme growing) := by
  have hmin := minimalWidth_le_four operand
  have hone := one_le_minimalWidth operand
  cases growing
  · simpa [extreme] using hone
  · simpa [extreme, maximalWidth] using hmin

namespace Block

/-- The size of a block whose jumps are as wide as can be. -/
def fullSize (b : Block) : Nat := b.foldr (fun i sum => i.fullSize + sum) 0

@[simp] theorem fullSize_nil : fullSize [] = 0 := rfl

@[simp] theorem fullSize_cons (i : Instruction) (b : Block) :
    fullSize (i :: b) = i.fullSize + fullSize b := rfl

@[simp] theorem fullSize_append (a b : Block) : fullSize (a ++ b) = fullSize a + fullSize b := by
  induction a with
  | nil => simp
  | cons i a ih => rw [List.cons_append, fullSize_cons, ih, fullSize_cons, Nat.add_assoc]

theorem size_le_fullSize {b c : Block} (h : List.Forall₂ Instruction.Resized b c)
    (hw : ∀ i ∈ c, i.width ≤ maximalWidth) : size c ≤ fullSize b := by
  induction h with
  | nil => exact le_rfl
  | cons hi _ ih =>
    rw [size_cons, fullSize_cons]
    exact Nat.add_le_add (Instruction.size_le_fullSize hi (hw _ (List.mem_cons_self ..)))
      (ih fun j hj => hw j (List.mem_cons_of_mem _ hj))

theorem fullSize_eq_size {b : Block} (h : ∀ i ∈ b, i.flow = .other) : fullSize b = size b := by
  induction b with
  | nil => rfl
  | cons i b ih =>
    have hi : i.fullSize = i.size := by
      simp [Instruction.fullSize, h i (List.mem_cons_self ..), Flow.isJump]
    rw [fullSize_cons, size_cons, hi, ih fun j hj => h j (List.mem_cons_of_mem _ hj)]

/-- The widest layout is at most as many times as long as an instruction can be wide. -/
theorem fullSize_le_of_solid {b : Block} (h : b.Solid) : fullSize b ≤ maximalWidth * size b := by
  induction b with
  | nil => exact le_rfl
  | cons i b ih =>
    have hi := h i (List.mem_cons_self ..)
    have hb := ih fun j hj => h j (List.mem_cons_of_mem _ hj)
    have hfull : i.fullSize ≤ maximalWidth * i.size := by
      unfold Instruction.fullSize
      unfold Instruction.size wordSize maximalWidth at *
      split <;> omega
    rw [fullSize_cons, size_cons, Nat.mul_add]
    exact Nat.add_le_add hfull hb

theorem fullSize_spliced_le (b : Block) (k count : Nat) {added : Block} (ha : added.Addable) :
    fullSize (b.spliced k count added) ≤ fullSize b + size added := by
  conv_rhs => rw [take_append_drop_append_drop b k count]
  rw [spliced, fullSize_append, fullSize_append, fullSize_append, fullSize_append,
    fullSize_eq_size ha.flow_eq]
  omega

theorem size_spliced_le (b : Block) (k count : Nat) (added : Block) :
    size (b.spliced k count added) ≤ size b + size added := by
  conv_rhs => rw [take_append_drop_append_drop b k count]
  rw [spliced, size_append, size_append, size_append, size_append]
  omega

/-- The size that a block can reach in the direction of relocation. -/
def ceiling (growing : Bool) (b : Block) : Nat := if growing then fullSize b else size b

section Limit

variable {growing : Bool} {b added : Block} {out slots : List Slot} {k count : Nat}

theorem size_le_ceiling (h : List.Forall₂ (Slot.Leans growing) slots out)
    (hw : ∀ s ∈ out, s.instruction.width ≤ maximalWidth) :
    size (instructionsOf out) ≤ ceiling growing (instructionsOf slots) := by
  cases growing
  · exact size_le_of_within (within_of_shrinking h)
  · have hresized : List.Forall₂ Instruction.Resized (instructionsOf slots) (instructionsOf out) :=
      forall₂_instructionsOf h fun _ _ hs => resized_of_follows hs.follows
    refine size_le_fullSize hresized fun i hi => ?_
    obtain ⟨s, hs, rfl⟩ := List.mem_map.1 hi
    exact hw s hs

theorem width_refit_of_fits {s : Slot} (h : s.Fits) (operand : Origin → Nat → UInt32) :
    Toward growing s.instruction.width (s.refit operand (extreme growing)).instruction.width ∧
      (s.refit operand (extreme growing)).instruction.width ≤ maximalWidth ∧
      1 ≤ (s.refit operand (extreme growing)).instruction.width := by
  have hle := h.width_le
  have hpos := (one_le_minimalWidth _).trans h.minimalWidth_le
  unfold Slot.refit extreme
  cases s.jump? with
  | none => exact ⟨.refl growing _, hle, hpos⟩
  | some p =>
    cases growing
    · simpa [maximalWidth] using hpos
    · simpa [maximalWidth] using hle

theorem leans_pinned {primary : Shift} (hfits : ∀ s ∈ slots, s.Fits) :
    List.Forall₂ (Slot.Leans growing) slots (pinned primary (extreme growing) slots) := by
  rw [pinned, List.forall₂_map_right_iff]
  exact List.forall₂_same.2 fun s hs =>
    ⟨s.follows_refit _ _, (width_refit_of_fits (hfits s hs) _).1⟩

theorem width_of_mem_pinned {primary : Shift} {s : Slot} (hfits : ∀ s ∈ slots, s.Fits)
    (hs : s ∈ pinned primary (extreme growing) slots) :
    s.instruction.width ≤ maximalWidth ∧ 1 ≤ s.instruction.width := by
  rw [pinned, List.mem_map] at hs
  obtain ⟨s, hs, rfl⟩ := hs
  exact (width_refit_of_fits (hfits s hs) _).2

theorem carry_succ_le {j m length : Nat} (hj : Stays k count j) (hm : m ≤ k ∨ k + count ≤ m)
    (hjm : j < m) : carry k count length j + 1 ≤ carry k count length m := by
  unfold Stays at hj
  unfold carry
  split <;> split <;> omega

/-- After a splice the jumps at the extreme width are a limit of relocation. -/
theorem limit_pinned (hb : b.Valid) (ha : added.Addable) (hk : k + count ≤ b.length)
    (hspares : b.Spares k count) (hroom : ceiling growing (b.spliced k count added) < limit32) :
    Limit growing (b.spliceShift k count added) (b.splicedSlots k count added)
      (pinned (b.spliceShift k count added) (extreme growing) (b.splicedSlots k count added)) := by
  have hfits : ∀ s ∈ b.splicedSlots k count added, s.Fits := fun s hs =>
    fits_of_mem_splicedSlots hb.encodable ha.encodable hs
  have hleans : List.Forall₂ (Slot.Leans growing) (b.splicedSlots k count added)
      (pinned (b.spliceShift k count added) (extreme growing) (b.splicedSlots k count added)) :=
    leans_pinned hfits
  have hfollows := hleans.imp fun _ _ h => h.follows
  have hsize := size_le_ceiling hleans fun s hs => (width_of_mem_pinned hfits hs).1
  rw [instructionsOf_splicedSlots] at hsize
  refine ⟨hleans, settled_pinned fun s hs o t hj => ?_, fun s hs o t hj => ?_⟩
  · obtain ⟨l, hl⟩ := List.mem_iff_getElem?.1 hs
    rcases exists_of_getElem?_splicedSlots hk hl with ⟨i, -, rfl⟩ | ⟨j, i, hjstay, -, hi, rfl⟩
    · cases hj.origin_eq
    · have hjump : i.flow.isJump = true := hj.isJump
      have htarget := hj.target_eq
      cases hj.origin_eq
      obtain ⟨m, hjm⟩ := hb.closed j i hi hjump
      have hmlen := hjm.1
      have hgoal := (hjm.target?_eq hi).2
      obtain rfl : start b m = t := Option.some.inj (hgoal.symm.trans htarget)
      have hm := hspares j m hjstay hjm
      have hdemand := demand_eq hb.solid hk hfollows hi hjm hjstay hm
      obtain ⟨hreach, -⟩ := (target?_eq_some_iff hi hjump).1 hgoal
      have hbound := (start_le_size (instructionsOf (pinned (b.spliceShift k count added)
        (extreme growing) (b.splicedSlots k count added)))
        (carry k count added.length m)).trans hsize
      simp only [Slot.ofPlaced]
      rw [hdemand]
      refine ⟨?_, by omega⟩
      -- A relative jump leads forward, and it still does.
      unfold base at hreach ⊢
      split
      · rename_i hrelative
        rw [if_pos hrelative] at hreach
        have hjlt : j < m := by
          have := (start_le_start_iff hb.solid (k := j + 1) (l := m)
            (List.getElem?_eq_some_iff.1 hi).1).1 (by omega)
          omega
        have hcarry : carry k count added.length j + 1 ≤ carry k count added.length m :=
          carry_succ_le hjstay hm hjlt
        have := start_mono (instructionsOf (pinned (b.spliceShift k count added)
          (extreme growing) (b.splicedSlots k count added))) hcarry
        omega
      · simp
  · have hextreme : s.instruction.width = extreme growing := by
      rw [pinned, List.mem_map] at hs
      obtain ⟨s₀, -, rfl⟩ := hs
      rw [Slot.refit_of_jumps ((s₀.follows_refit _ _).jumps_iff.1 hj)]
    rw [hextreme]
    exact minimalWidth_toward_extreme growing _

/-- A splice that leaves every jump a target succeeds when relocation has a limit and its outcome is
below the 32-bit limit. -/
theorem exists_finish_of_limit {bound : List Slot} (removed : Block) (hb : b.Valid)
    (ha : added.Placeable) (hk : k + count ≤ b.length) (hspares : b.Spares k count)
    (hl : Limit (decide (0 < (b.spliceShift k count added).delta)) (b.spliceShift k count added)
      (b.splicedSlots k count added) bound)
    (hroom : ∀ out shifts, relocate (b.spliceShift k count added) (b.splicedSlots k count added) =
      .ok (out, shifts) → size (instructionsOf out) < limit32)
    (hleft : ∀ j m, Stays k count j → b.LeadsTo j m →
      carry k count added.length m < b.length - count + added.length) :
    ∃ e, Draft.finish ⟨b.splicedSlots k count added, b.spliceShift k count added, removed⟩ =
      .ok e := by
  have hfits : ∀ s ∈ b.splicedSlots k count added, s.Fits := fun s hs =>
    fits_of_mem_splicedSlots_of_fits hb.encodable ha.fits hs
  have horigin : ∀ s ∈ b.splicedSlots k count added, s.AtOrigin := fun s hs =>
    atOrigin_of_mem_splicedSlots hk hs
  obtain ⟨⟨out, shifts⟩, hrelocate⟩ := exists_relocate_of_limit horigin hfits hl
  have h := Relocated.of_relocate horigin hfits hrelocate
  have hfollows := h.leans.imp fun _ _ hleans => hleans.follows
  rw [← length_instructionsOf_of_follows hk hfollows] at hleft
  obtain ⟨hlayout, hclosed⟩ :=
    checks_of_relocated hb ha hk hspares h (hroom out shifts hrelocate) hleft
  exact ⟨⟨encode (instructionsOf out), shifts, removed⟩,
    finish_eq_ok_iff.2 ⟨out, hrelocate, hlayout, hclosed, rfl, rfl⟩⟩

/-- A splice that leaves every jump a target succeeds when there is room for it. -/
theorem exists_finish (removed : Block) (hb : b.Valid) (ha : added.Addable)
    (hk : k + count ≤ b.length) (hspares : b.Spares k count)
    (hroom : ceiling (decide (0 < (b.spliceShift k count added).delta))
      (b.spliced k count added) < limit32)
    (hleft : ∀ j m, Stays k count j → b.LeadsTo j m →
      carry k count added.length m < b.length - count + added.length) :
    ∃ e, Draft.finish ⟨b.splicedSlots k count added, b.spliceShift k count added, removed⟩ =
      .ok e := by
  refine exists_finish_of_limit removed hb ha.placeable hk hspares
    (limit_pinned hb ha hk hspares hroom) (fun out shifts hrelocate => ?_) hleft
  have h := relocated_of_relocate hb.encodable ha.placeable.fits hk hrelocate
  have hsize := size_le_ceiling h.leans fun s hs => (h.fits s hs).width_le
  rw [instructionsOf_splicedSlots] at hsize
  exact hsize.trans_lt hroom

end Limit

end Block

end Tripwire
