import Tripwire.Proofs.Splice.Layout

/-!
# Routes

A layout of a block is given by its widths and by where its jumps lead: the operands
follow. So two layouts with the same widths whose jumps lead alike are the same, and
jumps can be led anywhere that the 32-bit operands reach.

* `Block.eq_of_routes`: layouts with the same widths and the same routes;
* `Block.exists_routed`: the layout with given widths and routes;
* `Block.forall₂_spliced`, `Block.forall₂_unspliced`: blocks that match before and after a splice;
* `Block.exists_jump_of_spliced`, `Block.exists_of_leadsTo`: the jumps after a splice were there
  before;
* `Block.start_spliced_carry`, `Block.end_spliced_carry`: the offsets after a splice;
* `Block.operand_toward_of_spliced`: the operands after a splice.
-/

namespace Tripwire

namespace Block

variable {b w x added : Block} {k count : Nat}

/-- The operand of a jump is the distance to the instruction that it leads to. -/
theorem LeadsTo.operand_eq {j m : Nat} {i : Instruction} (h : b.LeadsTo j m) (hi : b[j]? = some i) :
    base b i.flow j + i.operand.toNat = start b m := by
  obtain ⟨hjump, htarget⟩ := h.target?_eq hi
  exact ((target?_eq_some_iff hi hjump).1 htarget).1

theorem base_eq_of_width_eq
    (h : List.Forall₂ (fun i i' : Instruction => i'.width = i.width) b w) (flow : Flow) (j : Nat) :
    base w flow j = base b flow j := by
  unfold base
  rw [start_eq_of_width_eq h]

/-- Layouts of the same instructions with the same widths, whose jumps lead alike, are the same. -/
theorem eq_of_routes (hb : b.Closed) (hresized : List.Forall₂ Instruction.Resized b w)
    (hwidth : List.Forall₂ (fun i i' : Instruction => i'.width = i.width) b w)
    (hleads : ∀ j m, b.LeadsTo j m → w.LeadsTo j m) : w = b := by
  refine List.ext_getElem? fun l => ?_
  cases hi : b[l]? with
  | none =>
    rw [List.getElem?_eq_none_iff, ← hresized.length_eq]
    exact List.getElem?_eq_none_iff.1 hi
  | some i =>
    obtain ⟨i', hi', hsame, hw⟩ := exists_getElem?_right (forall₂_both hresized hwidth) hi
    rw [hi']
    by_cases hjump : i.flow.isJump = true
    · -- Both jumps lead to the same offset, and they count from the same one.
      obtain ⟨m, hjm⟩ := hb l i hi hjump
      have hreach := hjm.operand_eq hi
      have hreach' := (hleads l m hjm).operand_eq hi'
      rw [start_eq_of_width_eq hwidth, base_eq_of_width_eq hwidth, hsame.flow_eq] at hreach'
      have hoperand : i'.operand = i.operand := UInt32.toNat_inj.1 (by omega)
      have hopcode := hsame.opcode_eq
      cases i
      cases i'
      simp_all
    · rw [hsame.eq_of_not_isJump (by simpa using hjump)]

/-- Jumps can be led along any routes within the 32-bit range. -/
theorem exists_routed {route : Nat → Nat → Prop}
    (hunique : ∀ j m m', route j m → route j m' → m = m') (hroom : x.size < limit32)
    (hroute : ∀ j m, route j m → m < x.length ∧
      ∃ i, x[j]? = some i ∧ i.flow.isJump = true ∧ base x i.flow j ≤ start x m) :
    ∃ w : Block, List.Forall₂ (fun i i' => i.Resized i' ∧ i'.width = i.width) x w ∧
      ∀ j m, route j m → w.LeadsTo j m := by
  obtain ⟨w, hlen, hc⟩ := exists_chosen (P := fun j i i' => (i.Resized i' ∧ i'.width = i.width) ∧
    ∀ m, route j m → base x i.flow j + i'.operand.toNat = start x m) x fun j i hi => by
      by_cases h : ∃ m, route j m
      · obtain ⟨m, hjm⟩ := h
        obtain ⟨hm, i', hi', hjump, hbase⟩ := hroute j m hjm
        rw [hi] at hi'
        cases hi'
        refine ⟨⟨i.opcode, UInt32.ofNat (start x m - base x i.flow j), i.width⟩,
          ⟨⟨rfl, fun hn => by simp [hjump] at hn⟩, rfl⟩, fun m' hjm' => ?_⟩
        have hbound : start x m < limit32 := (start_le_size x m).trans_lt hroom
        simp only [limit32] at hbound
        rw [hunique j m' m hjm' hjm,
          UInt32.toNat_ofNat_of_lt' (by simp only [UInt32.size]; omega)]
        exact Nat.add_sub_cancel' hbase
      · exact ⟨i, ⟨.refl i, rfl⟩, fun m hjm => absurd ⟨m, hjm⟩ h⟩
  have hsame := forall₂_of_getElem? hlen fun j i i' hi hi' => (hc j i i' hi hi').1
  have hwidth := hsame.imp fun _ _ h => h.2
  refine ⟨w, hsame, fun j m hjm => ?_⟩
  obtain ⟨hm, i, hi, hjump, -⟩ := hroute j m hjm
  obtain ⟨i', hi', hresized, -⟩ := exists_getElem?_right hsame hi
  have hjump' : i'.flow.isJump = true := by rwa [hresized.flow_eq]
  refine ⟨by rwa [← hlen], i', hi', hjump', (target?_eq_some_iff hi' hjump').2 ?_⟩
  rw [hresized.flow_eq, start_eq_of_width_eq hwidth, base_eq_of_width_eq hwidth]
  exact ⟨(hc j i i' hi hi').2 m hjm, (start_le_size x m).trans_lt hroom⟩

/-- The jumps of a layout lead where those of the block lead. -/
theorem leadsTo_of_resized {j m : Nat} (hb : b.Closed) (hc : w.Solid)
    (hresized : List.Forall₂ Instruction.Resized b w)
    (hleads : ∀ j m, b.LeadsTo j m → w.LeadsTo j m) (h : w.LeadsTo j m) : b.LeadsTo j m := by
  obtain ⟨-, i, hi, hjump, -⟩ := id h
  obtain ⟨i₀, hi₀, hsame⟩ := exists_getElem?_left hresized hi
  rw [hsame.flow_eq] at hjump
  obtain ⟨m', hjm⟩ := hb j i₀ hi₀ hjump
  rwa [← (hleads j m' hjm).unique hc h]

/-! ### Entry by entry -/

section Entries

variable {R : Instruction → Instruction → Prop} {r : Block} {j : Nat}

theorem length_spliced (added : Block) (hk : k + count ≤ b.length) :
    (b.spliced k count added).length = b.length - count + added.length := by
  simp only [spliced, List.length_append, List.length_take, List.length_drop]
  omega

/-- Splices of blocks that match do so as well. -/
theorem forall₂_spliced (hadded : ∀ i ∈ added, R i i) (k count : Nat) (h : List.Forall₂ R b w) :
    List.Forall₂ R (b.spliced k count added) (w.spliced k count added) :=
  List.rel_append (List.rel_append (List.forall₂_take k h) (List.forall₂_same.2 hadded))
    (List.forall₂_drop (k + count) h)

/-- A block that matches a splice matches the old block where what came in is replaced by what
matches the instructions taken out. -/
theorem forall₂_unspliced (hk : k + count ≤ b.length)
    (hr : List.Forall₂ R ((b.drop k).take count) r)
    (h : List.Forall₂ R (b.spliced k count added) w) :
    List.Forall₂ R b (w.spliced k added.length r) := by
  have hlen : (b.take k).length = k := List.length_take_of_le (by omega)
  have hfront := List.forall₂_take k h
  have hback := List.forall₂_drop (k + added.length) h
  rw [spliced, List.append_assoc, List.take_left' hlen] at hfront
  rw [spliced, List.drop_left' (by rw [List.length_append, hlen])] at hback
  rw [take_append_drop_append_drop b k count, ← List.append_assoc]
  exact List.rel_append (List.rel_append hfront hr) hback

/-- Splicing once more what came in gives the same block. -/
theorem spliced_unspliced (ha : added.Addable) (hk : k + r.length ≤ b.length)
    (h : List.Forall₂ Instruction.Resized (b.spliced k r.length added) w) :
    Block.spliced (w.spliced k added.length r) k r.length added = w := by
  have hlen : (b.take k).length = k := List.length_take_of_le (by omega)
  obtain ⟨frontAdded, back, rfl, hfrontAdded, -⟩ := exists_append_of_forall₂ h
  obtain ⟨front, middle, rfl, hfront, hmiddle⟩ := exists_append_of_forall₂ hfrontAdded
  obtain rfl := eq_of_resized (fun i hi => ha.isJump_eq hi) hmiddle
  have hfrontLen : front.length = k := by rw [← hfront.length_eq, hlen]
  have hmiddleLen : (front ++ middle).length = k + middle.length := by
    rw [List.length_append, hfrontLen]
  have hbetween : (front ++ r).length = k + r.length := by
    rw [List.length_append, hfrontLen]
  have hundone : Block.spliced (front ++ middle ++ back) k middle.length r =
      front ++ r ++ back := by
    rw [spliced, List.drop_left' hmiddleLen, List.append_assoc front, List.take_left' hfrontLen]
  rw [hundone, spliced, List.drop_left' hbetween, List.append_assoc front,
    List.take_left' hfrontLen]

/-- The instructions that stay are found at their new indices. -/
theorem getElem?_spliced_carry (added : Block) (hk : k + count ≤ b.length) (hj : Stays k count j) :
    (b.spliced k count added)[carry k count added.length j]? = b[j]? := by
  rw [← instructionsOf_splicedSlots, instructionsOf, List.getElem?_map,
    getElem?_splicedSlots_carry hk hj, getElem?_slots, Option.map_map]
  cases b[j]? <;> rfl

theorem getElem?_spliced_add (added : Block) (hk : k ≤ b.length) (count : Nat) {n : Nat}
    (hn : n < added.length) : (b.spliced k count added)[k + n]? = added[n]? := by
  have hlen : (b.take k).length = k := List.length_take_of_le hk
  rw [spliced, List.append_assoc, List.getElem?_append_right (by omega), hlen,
    Nat.add_sub_cancel_left, List.getElem?_append_left hn]

/-- An instruction after a splice has come in or was there before. -/
theorem exists_of_getElem?_spliced (hk : k + count ≤ b.length) {i : Instruction}
    (hi : (b.spliced k count added)[j]? = some i) :
    i ∈ added ∨ ∃ j', Stays k count j' ∧ carry k count added.length j' = j ∧ b[j']? = some i := by
  rw [← instructionsOf_splicedSlots, instructionsOf, List.getElem?_map,
    Option.map_eq_some_iff] at hi
  obtain ⟨s, hs, rfl⟩ := hi
  rcases exists_of_getElem?_splicedSlots hk hs with ⟨i, hmem, rfl⟩ | ⟨j', i, hstays, hj, hi', rfl⟩
  · exact .inl hmem
  · exact .inr ⟨j', hstays, hj, hi'⟩

section Jumps

variable (hb : b.Closed) (ha : added.Addable) (hk : k + count ≤ b.length)
  (hresized : List.Forall₂ Instruction.Resized (b.spliced k count added) w)
include hb ha hk hresized

/-- A jump after a splice was there before. -/
theorem exists_jump_of_spliced {i : Instruction} (hi : w[j]? = some i)
    (hjump : i.flow.isJump = true) : ∃ j' m, Stays k count j' ∧
      carry k count added.length j' = j ∧ b.LeadsTo j' m := by
  obtain ⟨i₀, hi₀, hsame⟩ := exists_getElem?_left hresized hi
  rw [hsame.flow_eq] at hjump
  rcases exists_of_getElem?_spliced hk hi₀ with hmem | ⟨j', hstays, hj, hi'⟩
  · rw [ha.isJump_eq hmem] at hjump
    cases hjump
  · obtain ⟨m, hjm⟩ := hb j' i₀ hi' hjump
    exact ⟨j', m, hstays, hj, hjm⟩

variable (hleads : ∀ j m, Stays k count j → b.LeadsTo j m →
  w.LeadsTo (carry k count added.length j) (carry k count added.length m))
include hleads

theorem closed_of_spliced : w.Closed := fun j i hi hjump => by
  obtain ⟨j', m, hstays, rfl, hjm⟩ := exists_jump_of_spliced hb ha hk hresized hi hjump
  exact ⟨_, hleads j' m hstays hjm⟩

/-- The jumps after a splice lead where their targets have come. -/
theorem exists_of_leadsTo {m : Nat} (hc : w.Solid) (h : w.LeadsTo j m) :
    ∃ j' m', Stays k count j' ∧ b.LeadsTo j' m' ∧
      carry k count added.length j' = j ∧ carry k count added.length m' = m := by
  obtain ⟨-, i, hi, hjump, -⟩ := id h
  obtain ⟨j', m', hstays, rfl, hjm⟩ := exists_jump_of_spliced hb ha hk hresized hi hjump
  exact ⟨j', m', hstays, hjm, rfl, (hleads j' m' hstays hjm).unique hc h⟩

end Jumps

end Entries

/-! ### Offsets and operands after a splice -/

section Offsets

variable {j m : Nat}

theorem start_spliced_front (added : Block) (hk : k ≤ b.length) (hm : m ≤ k) :
    start (b.spliced k count added) m = start b m := by
  have hlen : (b.take k).length = k := List.length_take_of_le hk
  rw [spliced, List.append_assoc, start_append_of_le _ (by omega), start_take_of_le b hm]

theorem start_spliced_back (added : Block) (hk : k + count ≤ b.length) (hm : k + count ≤ m) :
    (start (b.spliced k count added) (m - count + added.length) : Int) =
      start b m + (b.spliceShift k count added).delta := by
  obtain ⟨d, rfl⟩ := Nat.exists_eq_add_of_le hm
  have hlen : (b.take k).length = k := List.length_take_of_le (by omega)
  have hsize : size (b.take k) = start b k := rfl
  have hmono : start b k ≤ start b (k + count) := start_mono b (Nat.le_add_right _ _)
  have hindex : k + count + d - count + added.length = (b.take k ++ added).length + d := by
    rw [List.length_append]
    omega
  rw [hindex, spliced, start_append_add, size_append, hsize, start_add b (k + count) d, spliceShift]
  simp only [Shift.before]
  push_cast
  omega

/-- The offset after a splice of an instruction, and of what replaces the first one taken out. -/
theorem start_spliced_carry (added : Block) (hk : k + count ≤ b.length)
    (hm : m ≤ k ∨ k + count ≤ m) :
    (start (b.spliced k count added) (carry k count added.length m) : Int) =
      start b m + if k + count ≤ m then (b.spliceShift k count added).delta else 0 := by
  by_cases hback : k + count ≤ m
  · rw [carry_of_le _ hback, start_spliced_back added hk hback, if_pos hback]
  · rw [carry, if_pos (by omega), Nat.min_eq_left (by omega),
      start_spliced_front added (by omega) (by omega), if_neg hback, Int.add_zero]

/-- Where an instruction ends after a splice. -/
theorem end_spliced_carry (added : Block) (hk : k + count ≤ b.length) (hj : Stays k count j) :
    (start (b.spliced k count added) (carry k count added.length j + 1) : Int) =
      start b (j + 1) + if k + count ≤ j then (b.spliceShift k count added).delta else 0 := by
  rcases hj with hj | hj
  · rw [carry_of_lt _ _ hj, start_spliced_front added (by omega) hj, if_neg (by omega),
      Int.add_zero]
  · rw [carry_of_le _ hj, show j - count + added.length + 1 = j + 1 - count + added.length by omega,
      start_spliced_back added hk (by omega), if_pos hj]

/-- The target of a relative jump lies behind it. -/
theorem LeadsTo.lt_of_relative {i : Instruction} (hb : b.Solid) (h : b.LeadsTo j m)
    (hi : b[j]? = some i) (hflow : i.flow = .relativeJump) : j < m := by
  have hreach := h.operand_eq hi
  rw [hflow, base, if_pos rfl] at hreach
  obtain ⟨hj, -⟩ := List.getElem?_eq_some_iff.1 hi
  have hle : start b (j + 1) ≤ start b m := by omega
  exact (start_le_start_iff hb hj).1 hle

/-- The operands of jumps move in the direction of the splice. -/
theorem operand_toward_of_spliced {growing : Bool} {i i' : Instruction} (hb : b.Solid)
    (hk : k + count ≤ b.length) (hdelta : Toward growing 0 (b.spliceShift k count added).delta)
    (hstart : ∀ l, start w l = start (b.spliced k count added) l)
    (hj : Stays k count j) (hm : m ≤ k ∨ k + count ≤ m) (hjm : b.LeadsTo j m)
    (hjm' : w.LeadsTo (carry k count added.length j) (carry k count added.length m))
    (hi : b[j]? = some i) (hi' : w[carry k count added.length j]? = some i')
    (hflow : i'.flow = i.flow) : Toward growing i.operand.toNat i'.operand.toNat := by
  have hgoal := start_spliced_carry added hk hm
  have hend := end_spliced_carry added hk hj
  have hreach := hjm.operand_eq hi
  have hreach' := hjm'.operand_eq hi'
  rw [← hstart] at hgoal hend
  rw [hflow] at hreach'
  generalize (b.spliceShift k count added).delta = d at *
  by_cases hrelative : i.flow = .relativeJump
  · have hlt := hjm.lt_of_relative hb hi hrelative
    rw [hrelative, base, if_pos rfl] at hreach hreach'
    cases growing
    · rw [toward_false] at *
      split at hgoal <;> split at hend <;> omega
    · rw [toward_true] at *
      split at hgoal <;> split at hend <;> omega
  · rw [base, if_neg hrelative] at hreach hreach'
    cases growing
    · rw [toward_false] at *
      split at hgoal <;> omega
    · rw [toward_true] at *
      split at hgoal <;> omega

end Offsets

end Block

end Tripwire
