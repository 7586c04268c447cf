import Tripwire.Splice
import Tripwire.Proofs.Block.Position
import Tripwire.Proofs.Block.RoundTrip
import Tripwire.Proofs.Relocation.Nearest

/-!
# Where a splice takes instructions

A splice replaces the instructions of a block from one index up to another by
new ones. Whatever widths the jumps then have, the instructions in front stand
where their growth puts them, and those behind are moved by the splice as well.

* `Block.slotsFrom`: the slots of a part of the block;
* `Block.spliced`, `Block.splicedSlots`, `Block.spliceShift`: the splice;
* `carry`: the index that an instruction has afterwards;
* `Block.start_carry`, `Block.end_carry`: the offsets that instructions have afterwards;
* `Block.demand_eq`: the operands that jumps have to have, in terms of these offsets.
-/

namespace Tripwire

/-- The instructions in some slots. -/
def instructionsOf (slots : List Slot) : Block := slots.map Slot.instruction

@[simp] theorem instructionsOf_nil : instructionsOf [] = [] := rfl

@[simp] theorem instructionsOf_cons (s : Slot) (slots : List Slot) :
    instructionsOf (s :: slots) = s.instruction :: instructionsOf slots := rfl

@[simp] theorem instructionsOf_append (a b : List Slot) :
    instructionsOf (a ++ b) = instructionsOf a ++ instructionsOf b :=
  List.map_append

@[simp] theorem length_instructionsOf (slots : List Slot) :
    (instructionsOf slots).length = slots.length :=
  List.length_map _

theorem forall₂_instructionsOf {R : Slot → Slot → Prop} {P : Instruction → Instruction → Prop}
    {slots out : List Slot} (h : List.Forall₂ R slots out)
    (hR : ∀ s s', R s s' → P s.instruction s'.instruction) :
    List.Forall₂ P (instructionsOf slots) (instructionsOf out) := by
  rw [instructionsOf, instructionsOf, List.forall₂_map_left_iff, List.forall₂_map_right_iff]
  exact h.imp hR

@[simp] theorem instructionsOf_fresh (b : Block) : instructionsOf (b.map Slot.fresh) = b := by
  induction b with
  | nil => rfl
  | cons i b ih => rw [List.map_cons, instructionsOf_cons, ih]; rfl

@[simp] theorem swell_fresh (q : Site) (b : Block) : swell q (b.map Slot.fresh) = 0 := by
  induction b with
  | nil => rfl
  | cons i b ih => rw [List.map_cons, swell_cons, ih]; rfl

namespace Block

variable {b x added : Block} {out : List Slot} {s p : Nat}

/-! ### The slots of a part of a block -/

/-- The slots of a part of a block that begins at `s`. -/
def slotsFrom (s : Nat) : Block → List Slot
  | [] => []
  | i :: b => Slot.ofPlaced i s :: slotsFrom (s + i.size) b

@[simp] theorem length_slotsFrom (s : Nat) (b : Block) : (slotsFrom s b).length = b.length := by
  induction b generalizing s with
  | nil => rfl
  | cons i b ih => simp [slotsFrom, ih]

theorem slots_eq_slotsFrom (b : Block) : b.slots = slotsFrom 0 b := by
  have h : ∀ s, (b.zip (offsetsFrom s b)).map (fun p => Slot.ofPlaced p.1 p.2) = slotsFrom s b := by
    induction b with
    | nil => intro s; rfl
    | cons i b ih =>
      intro s
      rw [offsetsFrom_cons, List.zip_cons_cons, List.map_cons, ih]
      rfl
  exact h 0

theorem slotsFrom_take (s : Nat) (b : Block) (k : Nat) :
    (slotsFrom s b).take k = slotsFrom s (b.take k) := by
  induction b generalizing s k with
  | nil => cases k <;> rfl
  | cons i b ih =>
    cases k with
    | zero => rfl
    | succ k => rw [slotsFrom, List.take_succ_cons, ih, List.take_succ_cons, slotsFrom]

theorem slotsFrom_drop (s : Nat) (b : Block) (k : Nat) :
    (slotsFrom s b).drop k = slotsFrom (s + start b k) (b.drop k) := by
  induction b generalizing s k with
  | nil => cases k <;> rfl
  | cons i b ih =>
    cases k with
    | zero => rfl
    | succ k =>
      rw [slotsFrom, List.drop_succ_cons, ih, start_cons_succ, List.drop_succ_cons, Nat.add_assoc]

theorem getElem?_slots (b : Block) (k : Nat) :
    b.slots[k]? = b[k]?.map fun i => Slot.ofPlaced i (start b k) := by
  rw [slots, List.getElem?_map, getElem?_placed, Option.map_map]
  rfl

/-! ### The growth of a part of a block -/

theorem growth_of_ofPlaced {i : Instruction} {s' : Slot} (h : (Slot.ofPlaced i s).Follows s')
    (q : Site) :
    s'.growth q = if q .within s then (s'.instruction.size : Int) - i.size else 0 := by
  have horigin : s'.origin = some ⟨s, i.size, i.target? s⟩ := h.origin_eq
  rw [Slot.growth, horigin]

/-- Nothing has grown in front of a part. -/
theorem swell_ahead_eq_zero (h : List.Forall₂ Slot.Follows (slotsFrom s x) out) (hp : p ≤ s) :
    swell (Shift.ahead p) out = 0 := by
  induction x generalizing s out with
  | nil => cases h; rfl
  | cons i x ih =>
    cases h with
    | cons hs hrest =>
      rw [swell_cons, ih hrest (hp.trans (Nat.le_add_right _ _)), growth_of_ofPlaced hs,
        Shift.ahead, if_neg (by simpa using hp)]
      rfl

/-- All of the growth of a part lies in front of a position behind it. -/
theorem size_eq_add_swell (hx : x.Solid) (h : List.Forall₂ Slot.Follows (slotsFrom s x) out)
    (hp : s + size x ≤ p) :
    (size (instructionsOf out) : Int) = size x + swell (Shift.ahead p) out := by
  induction x generalizing s out with
  | nil => cases h; rfl
  | cons i x ih =>
    cases h with
    | cons hs hrest =>
      rename_i s' rest
      have hpos := hx i (List.mem_cons_self ..)
      rw [size_cons] at hp
      have htail := ih (fun j hj => hx j (List.mem_cons_of_mem _ hj)) hrest (by omega)
      have hhead : s'.growth (Shift.ahead p) = (s'.instruction.size : Int) - i.size := by
        rw [growth_of_ofPlaced hs, Shift.ahead, if_pos (by simp; omega)]
      rw [swell_cons, instructionsOf_cons, size_cons, size_cons, hhead]
      push_cast
      omega

/-- An instruction of a part stands where the growth in front of it puts it. -/
theorem start_eq_add_swell (hx : x.Solid) (h : List.Forall₂ Slot.Follows (slotsFrom s x) out)
    {m : Nat} (hm : m ≤ x.length) :
    (start (instructionsOf out) m : Int) =
      start x m + swell (Shift.ahead (s + start x m)) out := by
  induction x generalizing s out m with
  | nil =>
    cases h
    simp
  | cons i x ih =>
    cases h with
    | cons hs hrest =>
      rename_i s' rest
      have hpos := hx i (List.mem_cons_self ..)
      cases m with
      | zero =>
        have hzero : swell (Shift.ahead (s + start (i :: x) 0)) (s' :: rest) = 0 :=
          swell_ahead_eq_zero (x := i :: x) (.cons hs hrest) le_rfl
        rw [hzero]
        rfl
      | succ m =>
        have htail := ih (fun j hj => hx j (List.mem_cons_of_mem _ hj)) hrest
          (Nat.le_of_succ_le_succ hm)
        have hhead : s'.growth (Shift.ahead (s + (i.size + start x m))) =
            (s'.instruction.size : Int) - i.size := by
          rw [growth_of_ofPlaced hs, Shift.ahead, if_pos (by simp; omega)]
        rw [swell_cons, instructionsOf_cons, start_cons_succ, start_cons_succ, hhead,
          ← Nat.add_assoc s]
        push_cast
        omega

/-! ### The splice -/

/-- The block with `count` instructions from the index `k` on replaced. -/
def spliced (b : Block) (k count : Nat) (added : Block) : Block :=
  b.take k ++ added ++ b.drop (k + count)

theorem take_append_drop_append_drop (b : Block) (k count : Nat) :
    b = b.take k ++ ((b.drop k).take count ++ b.drop (k + count)) := by
  rw [← List.drop_drop, List.take_append_drop, List.take_append_drop]

/-- The slots of the block with `count` instructions from the index `k` on replaced. -/
def splicedSlots (b : Block) (k count : Nat) (added : Block) : List Slot :=
  b.slots.take k ++ added.map Slot.fresh ++ b.slots.drop (k + count)

/-- The change of size that the splice itself makes. -/
def spliceShift (b : Block) (k count : Nat) (added : Block) : Shift :=
  .before (start b (k + count)) (added.size - (start b (k + count) - start b k : Int))

end Block

/-- The index after a splice of the instruction with index `m`. The first instruction taken out
gives its index to what comes in its place. -/
def carry (k count length m : Nat) : Nat :=
  if m < k + count then min m k else m - count + length

theorem carry_of_lt {k m : Nat} (count length : Nat) (h : m < k) : carry k count length m = m := by
  rw [carry, if_pos (by omega), Nat.min_eq_left h.le]

theorem carry_of_le {k count m : Nat} (length : Nat) (h : k + count ≤ m) :
    carry k count length m = m - count + length := by
  rw [carry, if_neg (by omega)]

/-- The instruction with index `m` stays. -/
def Stays (k count m : Nat) : Prop := m < k ∨ k + count ≤ m

namespace Block

section Splice

variable {b added : Block} {out : List Slot} {k count : Nat}

theorem eq_of_follows_fresh (h : List.Forall₂ Slot.Follows (added.map Slot.fresh) out) :
    out = added.map Slot.fresh := by
  induction added generalizing out with
  | nil => cases h; rfl
  | cons i added ih =>
    cases h with
    | cons hs hrest =>
      have hfresh : ∀ o t, ¬ (Slot.fresh i).Jumps o t := fun o t hj => nomatch hj.origin_eq
      rw [hs.eq_of_not_jumps hfresh, ih hrest]
      rfl

theorem parts_of_follows (h : List.Forall₂ Slot.Follows (b.splicedSlots k count added) out) :
    ∃ front back, out = front ++ added.map Slot.fresh ++ back ∧
      List.Forall₂ Slot.Follows (slotsFrom 0 (b.take k)) front ∧
      List.Forall₂ Slot.Follows (slotsFrom (start b (k + count)) (b.drop (k + count))) back := by
  rw [splicedSlots, slots_eq_slotsFrom, slotsFrom_take, slotsFrom_drop, Nat.zero_add] at h
  obtain ⟨frontAdded, back, rfl, hfrontAdded, hback⟩ := exists_append_of_forall₂ h
  obtain ⟨front, middle, rfl, hfront, hmiddle⟩ := exists_append_of_forall₂ hfrontAdded
  rw [eq_of_follows_fresh hmiddle]
  exact ⟨front, back, rfl, hfront, hback⟩

theorem start_front (hb : b.Solid) (hk : k + count ≤ b.length)
    (h : List.Forall₂ Slot.Follows (b.splicedSlots k count added) out) {m : Nat} (hm : m ≤ k) :
    (start (instructionsOf out) m : Int) = start b m + swell (Shift.ahead (start b m)) out := by
  obtain ⟨front, back, rfl, hfront, hback⟩ := parts_of_follows h
  have hlen : (b.take k).length = k := List.length_take_of_le (by omega)
  have hfrontLen : front.length = k := by
    rw [← hfront.length_eq, length_slotsFrom, hlen]
  have hstart := start_eq_add_swell (hb.take k) hfront (m := m) (by omega)
  have hbehind : swell (Shift.ahead (start b m)) back = 0 :=
    swell_ahead_eq_zero hback (start_mono b (by omega))
  rw [start_take_of_le b hm, Nat.zero_add] at hstart
  rw [instructionsOf_append, instructionsOf_append, List.append_assoc,
    start_append_of_le _ (by rw [length_instructionsOf]; omega), hstart, swell_append,
    swell_append, swell_fresh, hbehind]
  omega

theorem start_back (hb : b.Solid) (h : List.Forall₂ Slot.Follows (b.splicedSlots k count added) out)
    {m : Nat} (hkm : k + count ≤ m) (hm : m ≤ b.length) :
    (start (instructionsOf out) (m - count + added.length) : Int) =
      start b m + (b.spliceShift k count added).delta + swell (Shift.ahead (start b m)) out := by
  obtain ⟨front, back, rfl, hfront, hback⟩ := parts_of_follows h
  obtain ⟨j, rfl⟩ := Nat.exists_eq_add_of_le hkm
  have hlen : (b.take k).length = k := List.length_take_of_le (by omega)
  have hfrontLen : front.length = k := by
    rw [← hfront.length_eq, length_slotsFrom, hlen]
  have hsum := start_add b (k + count) j
  have hmono : start b k ≤ start b (k + count) := start_mono b (Nat.le_add_right _ _)
  have hsize := size_eq_add_swell (hb.take k) hfront (p := start b (k + count + j)) (by
    rw [Nat.zero_add]
    exact start_mono b (by omega))
  have htail := start_eq_add_swell (hb.drop (k + count)) hback (m := j) (by
    rw [List.length_drop]
    omega)
  rw [← hsum] at htail
  have hindex : k + count + j - count + added.length =
      (instructionsOf front).length + (added.length + j) := by
    rw [length_instructionsOf]
    omega
  have hk : size (b.take k) = start b k := rfl
  rw [hindex, instructionsOf_append, instructionsOf_append, instructionsOf_fresh,
    List.append_assoc, start_append_add, start_append_add, swell_append, swell_append, swell_fresh,
    spliceShift]
  simp only [Shift.before]
  push_cast
  omega

theorem tally_spliceShift_of_le (h : start b (k + count) ≤ p) :
    Shift.tally (Shift.ahead p) [b.spliceShift k count added] =
      (b.spliceShift k count added).delta := by
  rw [Shift.tally_singleton]
  exact if_pos (decide_eq_true h)

theorem tally_spliceShift_of_lt (h : p < start b (k + count)) :
    Shift.tally (Shift.ahead p) [b.spliceShift k count added] = 0 := by
  rw [Shift.tally_singleton]
  exact if_neg (by simpa [spliceShift, Shift.before, Shift.ahead] using h)

/-- The offset after the splice of an instruction, and of what replaces the first one taken out. -/
theorem start_carry (hb : b.Solid) (hk : k + count ≤ b.length)
    (h : List.Forall₂ Slot.Follows (b.splicedSlots k count added) out) {m : Nat}
    (hm : m ≤ b.length) (hkm : m ≤ k ∨ k + count ≤ m) :
    (start (instructionsOf out) (carry k count added.length m) : Int) =
      start b m + Shift.tally (Shift.ahead (start b m)) [b.spliceShift k count added] +
        swell (Shift.ahead (start b m)) out := by
  by_cases hback : k + count ≤ m
  · rw [tally_spliceShift_of_le (start_mono b hback), carry_of_le _ hback,
      start_back hb h hback hm]
  · have hmk : m ≤ k := by omega
    have hlt : start b m < start b (k + count) := (start_lt_start_iff hb hk).2 (by omega)
    rw [tally_spliceShift_of_lt hlt, carry, if_pos (by omega), Nat.min_eq_left hmk,
      start_front hb hk h hmk, Int.add_zero]

theorem getElem?_splicedSlots_carry (hk : k + count ≤ b.length) {m : Nat}
    (hm : Stays k count m) :
    (b.splicedSlots k count added)[carry k count added.length m]? = b.slots[m]? := by
  have hslots : b.slots.length = b.length := by simp [slots, placed]
  have htake : (b.slots.take k).length = k := List.length_take_of_le (by omega)
  rw [splicedSlots]
  rcases hm with hm | hm
  · rw [carry_of_lt _ _ hm, List.append_assoc, List.getElem?_append_left (by omega),
      List.getElem?_take_of_lt hm]
  · rw [carry_of_le _ hm, List.getElem?_append_right (by simp; omega), List.getElem?_drop,
      List.length_append, htake, List.length_map]
    congr 1
    omega

theorem exists_of_getElem?_splicedSlots (hk : k + count ≤ b.length) {l : Nat} {s : Slot}
    (hs : (b.splicedSlots k count added)[l]? = some s) :
    (∃ i ∈ added, s = Slot.fresh i) ∨
      ∃ m i, Stays k count m ∧ carry k count added.length m = l ∧ b[m]? = some i ∧
        s = Slot.ofPlaced i (start b m) := by
  have hslots : b.slots.length = b.length := by simp [slots, placed]
  have hlen : l < k + added.length + (b.length - (k + count)) := by
    have hlt := (List.getElem?_eq_some_iff.1 hs).1
    simp only [splicedSlots, List.length_append, List.length_take, List.length_map,
      List.length_drop, hslots] at hlt
    omega
  have hold : ∀ m, Stays k count m → carry k count added.length m = l →
      ∃ m i, Stays k count m ∧ carry k count added.length m = l ∧ b[m]? = some i ∧
        s = Slot.ofPlaced i (start b m) := by
    intro m hm hl
    rw [← hl, getElem?_splicedSlots_carry hk hm, getElem?_slots, Option.map_eq_some_iff] at hs
    obtain ⟨i, hi, rfl⟩ := hs
    exact ⟨m, i, hm, hl, hi, rfl⟩
  by_cases hfront : l < k
  · exact .inr (hold l (.inl hfront) (carry_of_lt _ _ hfront))
  · by_cases hback : k + added.length ≤ l
    · refine .inr (hold (l - added.length + count) (.inr (by omega)) ?_)
      rw [carry_of_le _ (by omega)]
      omega
    · have htake : (b.slots.take k).length = k := List.length_take_of_le (by omega)
      rw [splicedSlots, List.getElem?_append_left (by simp; omega),
        List.getElem?_append_right (by omega), htake] at hs
      obtain ⟨i, hi, rfl⟩ := List.mem_map.1 (List.mem_of_getElem? hs)
      exact .inl ⟨i, hi, rfl⟩

/-- Up to a position inside an instruction the growth is the same as up to its end. -/
theorem swell_inside (hb : b.Solid) (hk : k + count ≤ b.length)
    (h : List.Forall₂ Slot.Follows (b.splicedSlots k count added) out) {j p : Nat}
    (hj : j < b.length) (hp : start b j < p) (hp' : p ≤ start b (j + 1)) :
    swell (Shift.ahead p) out = swell (Shift.ahead (start b (j + 1))) out := by
  refine swell_congr fun s hs o ho => ?_
  obtain ⟨s₀, hs₀, hfollows⟩ := exists_of_mem_right h hs
  obtain ⟨l, hl⟩ := List.mem_iff_getElem?.1 hs₀
  have horigin := hfollows.origin_eq
  rw [ho] at horigin
  obtain ⟨m, hm, hstart⟩ : ∃ m < b.length, o.offset = start b m := by
    rcases exists_of_getElem?_splicedSlots hk hl with ⟨_, -, rfl⟩ | ⟨m, i', -, -, hi', rfl⟩
    · cases horigin
    · cases horigin
      exact ⟨m, (List.getElem?_eq_some_iff.1 hi').1, rfl⟩
  rw [Shift.ahead, Shift.ahead, decide_eq_decide, hstart]
  constructor
  · intro hlt
    omega
  · intro hlt
    have hmj : m < j + 1 := (start_lt_start_iff hb hj).1 hlt
    have := start_mono b (Nat.le_of_lt_succ hmj)
    omega

/-- Where an instruction ends after the splice, by the changes in front of a position inside it. -/
theorem end_carry_inside (hb : b.Solid) (hk : k + count ≤ b.length)
    (h : List.Forall₂ Slot.Follows (b.splicedSlots k count added) out) {j p : Nat}
    (hlen : j < b.length) (hj : Stays k count j) (hp : start b j < p) (hp' : p < start b (j + 1)) :
    (start (instructionsOf out) (carry k count added.length j + 1) : Int) =
      start b (j + 1) + Shift.tally (Shift.ahead p) [b.spliceShift k count added] +
        swell (Shift.ahead p) out := by
  rw [swell_inside hb hk h hlen hp hp'.le]
  rcases hj with hj | hj
  · have hmono : start b (j + 1) ≤ start b (k + count) := start_mono b (by omega)
    rw [tally_spliceShift_of_lt (by omega), carry_of_lt _ _ hj,
      start_front hb hk h (by omega : j + 1 ≤ k), Int.add_zero]
  · have hmono : start b (k + count) ≤ start b j := start_mono b hj
    rw [tally_spliceShift_of_le (by omega), carry_of_le _ hj,
      show j - count + added.length + 1 = j + 1 - count + added.length by omega,
      start_back hb h (by omega) (by omega)]

/-- The last byte of an instruction lies inside it. -/
theorem lastByte_inside (hb : b.Solid) {j : Nat} {i : Instruction} (hi : b[j]? = some i) :
    start b j < start b j + i.size - 1 ∧ start b j + i.size - 1 < start b (j + 1) := by
  have hnext := start_succ hi
  have hpos := hb i (List.mem_of_getElem? hi)
  simp only [Instruction.size, wordSize] at hpos hnext ⊢
  omega

/-- Where an instruction ends after the splice. -/
theorem end_carry (hb : b.Solid) (hk : k + count ≤ b.length)
    (h : List.Forall₂ Slot.Follows (b.splicedSlots k count added) out) {j : Nat} {i : Instruction}
    (hi : b[j]? = some i) (hj : Stays k count j) :
    (start (instructionsOf out) (carry k count added.length j + 1) : Int) =
      start b (j + 1) +
        Shift.tally (Shift.ahead (start b j + i.size - 1)) [b.spliceShift k count added] +
        swell (Shift.ahead (start b j + i.size - 1)) out :=
  have hinside := lastByte_inside hb hi
  end_carry_inside hb hk h (List.getElem?_eq_some_iff.1 hi).1 hj hinside.1 hinside.2

/-- The operand that a jump has to have leads it to where its target has come. -/
theorem demand_eq (hb : b.Solid) (hk : k + count ≤ b.length)
    (h : List.Forall₂ Slot.Follows (b.splicedSlots k count added) out) {j m : Nat}
    {i : Instruction} (hi : b[j]? = some i) (hjm : b.LeadsTo j m) (hj : Stays k count j)
    (hm : m ≤ k ∨ k + count ≤ m) :
    Slot.demand (b.spliceShift k count added) out i.flow
        ⟨start b j, i.size, i.target? (start b j)⟩ (start b m) =
      start (instructionsOf out) (carry k count added.length m) -
        base (instructionsOf out) i.flow (carry k count added.length j) := by
  obtain ⟨hjump, htarget⟩ := hjm.target?_eq hi
  have hgoal := start_carry hb hk h hjm.1.le hm
  have hend := end_carry hb hk h hi hj
  have hnext := start_succ hi
  obtain ⟨hreach, -⟩ := (target?_eq_some_iff hi hjump).1 htarget
  cases hflow : i.flow with
  | absoluteJump =>
    simp only [Slot.demand, Slot.reach, Slot.span, base, reduceCtorEq, if_false]
    omega
  | relativeJump =>
    rw [hflow, base, if_pos rfl] at hreach
    have hahead : ∀ p o, Shift.ahead (start b j + i.size - 1) p o = true →
        Shift.ahead (start b m) p o = true := by
      intro p o
      cases p <;> simp only [Shift.ahead, decide_eq_true_eq] <;> omega
    simp only [Slot.demand, Slot.reach, Slot.span, Origin.lastByte, base, if_true,
      Shift.tally_sub hahead, swell_sub hahead]
    omega
  | suspension => simp [hflow, Flow.isJump] at hjump
  | other => simp [hflow, Flow.isJump] at hjump

end Splice

end Block

end Tripwire
