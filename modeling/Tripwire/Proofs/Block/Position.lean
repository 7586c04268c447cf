import Tripwire.Splice
import Tripwire.Proofs.Outcome

/-!
# Positions in a block

The instructions of a block stand at the sums of the sizes before them. Where
every instruction takes some bytes, an offset has at most one index.

* `Block.start`: the offset of an index;
* `Block.mem_offsets`, `Block.indexAt_eq_ok_iff`: offsets and indices;
* `Block.LeadsTo`, `Block.Closed`: jumps from index to index, with `Block.target?_eq_some_iff`;
* `Block.checkTargets_eq_ok_iff`: the check of jump targets, in these terms.
-/

namespace Tripwire.Block

/-- The offset of the instruction with a given index; from the end on, the length of the block. -/
def start (b : Block) (k : Nat) : Nat := size (b.take k)

/-- Every instruction takes some bytes. -/
def Solid (b : Block) : Prop := ∀ i ∈ b, 0 < i.size

theorem Solid.take {b : Block} (hb : b.Solid) (k : Nat) : Solid (b.take k) :=
  fun i hi => hb i (List.mem_of_mem_take hi)

theorem Solid.drop {b : Block} (hb : b.Solid) (k : Nat) : Solid (b.drop k) :=
  fun i hi => hb i (List.mem_of_mem_drop hi)

@[simp] theorem start_zero (b : Block) : start b 0 = 0 := rfl

@[simp] theorem start_nil (k : Nat) : start [] k = 0 := by
  simp [start]

@[simp] theorem start_cons_succ (i : Instruction) (b : Block) (k : Nat) :
    start (i :: b) (k + 1) = i.size + start b k := rfl

theorem start_of_length_le {b : Block} {k : Nat} (h : b.length ≤ k) : start b k = size b := by
  rw [start, List.take_of_length_le h]

@[simp] theorem start_length (b : Block) : start b b.length = size b :=
  start_of_length_le le_rfl

theorem start_succ {b : Block} {k : Nat} {i : Instruction} (h : b[k]? = some i) :
    start b (k + 1) = start b k + i.size := by
  rw [start, List.take_add_one, h, size_append]
  rfl

theorem start_append_of_le {a : Block} (b : Block) {k : Nat} (h : k ≤ a.length) :
    start (a ++ b) k = start a k := by
  rw [start, List.take_append_of_le_length h, start]

theorem start_append_add (a b : Block) (k : Nat) :
    start (a ++ b) (a.length + k) = size a + start b k := by
  rw [start, List.take_length_add_append, size_append, start]

theorem start_add (b : Block) (k l : Nat) : start b (k + l) = start b k + start (b.drop k) l := by
  rw [start, List.take_add, size_append, start, start]

theorem start_take_of_le (b : Block) {k m : Nat} (h : m ≤ k) : start (b.take k) m = start b m := by
  rw [start, List.take_take, Nat.min_eq_left h, start]

theorem start_mono (b : Block) {k l : Nat} (h : k ≤ l) : start b k ≤ start b l := by
  obtain ⟨d, rfl⟩ := Nat.exists_eq_add_of_le h
  rw [start, start, List.take_add, size_append]
  exact Nat.le_add_right _ _

theorem start_le_size (b : Block) (k : Nat) : start b k ≤ size b := by
  rcases Nat.le_total b.length k with h | h
  · exact (start_of_length_le h).le
  · exact (start_mono b h).trans (start_length b).le

theorem start_lt_start {b : Block} (hb : b.Solid) {k l : Nat} (h : k < l) (hk : k < b.length) :
    start b k < start b l := by
  have hpos := hb b[k] (List.getElem_mem hk)
  have hnext := start_succ (List.getElem?_eq_getElem hk)
  have hmono : start b (k + 1) ≤ start b l := start_mono b h
  omega

theorem start_lt_start_iff {b : Block} (hb : b.Solid) {k l : Nat} (hl : l ≤ b.length) :
    start b k < start b l ↔ k < l := by
  constructor
  · intro h
    by_contra hle
    exact absurd (start_mono b (Nat.le_of_not_lt hle)) (Nat.not_le_of_lt h)
  · exact fun h => start_lt_start hb h (Nat.lt_of_lt_of_le h hl)

theorem start_le_start_iff {b : Block} (hb : b.Solid) {k l : Nat} (hk : k ≤ b.length) :
    start b k ≤ start b l ↔ k ≤ l := by
  rw [← not_lt, start_lt_start_iff hb hk, not_lt]

theorem start_inj {b : Block} (hb : b.Solid) {k l : Nat} (hk : k ≤ b.length) (hl : l ≤ b.length)
    (h : start b k = start b l) : k = l := by
  have h1 := start_lt_start_iff hb (k := k) hl
  have h2 := start_lt_start_iff hb (k := l) hk
  omega

/-- A position in the code lies in one of the instructions. -/
theorem exists_index_of_lt_size {b : Block} {p : Nat} (h : p < b.size) :
    ∃ m < b.length, start b m ≤ p ∧ p < start b (m + 1) := by
  induction b generalizing p with
  | nil => cases h
  | cons i b ih =>
    by_cases hp : p < i.size
    · exact ⟨0, Nat.succ_pos _, Nat.zero_le _, by rwa [start_cons_succ, start_zero, Nat.add_zero]⟩
    · rw [size_cons] at h
      obtain ⟨m, hm, hle, hlt⟩ := @ih (p - i.size) (by omega)
      refine ⟨m + 1, Nat.succ_lt_succ hm, ?_, ?_⟩ <;> rw [start_cons_succ] <;> omega

/-- A function on offsets can be given by its values on the starts of the instructions. -/
theorem exists_on_starts {b : Block} (hb : b.Solid) (F : Nat → Nat) :
    ∃ g : Nat → Nat, ∀ m ≤ b.length, g (start b m) = F m := by
  classical
  refine ⟨fun q => if h : ∃ m, m ≤ b.length ∧ start b m = q then F h.choose else 0,
    fun m hm => ?_⟩
  have h : ∃ l, l ≤ b.length ∧ start b l = start b m := ⟨m, hm, rfl⟩
  simp only [dif_pos h]
  rw [start_inj hb h.choose_spec.1 hm h.choose_spec.2]

/-! ### Offsets and indices -/

theorem getElem?_offsetsFrom (s : Nat) (b : Block) (k : Nat) :
    (offsetsFrom s b)[k]? = if k < b.length then some (s + start b k) else none := by
  induction b generalizing s k with
  | nil => simp
  | cons i b ih =>
    cases k with
    | zero => simp
    | succ k =>
      rw [offsetsFrom_cons, List.getElem?_cons_succ, ih]
      simp [Nat.add_assoc]

theorem getElem?_offsets {b : Block} {k : Nat} (h : k < b.length) :
    (offsets b)[k]? = some (start b k) := by
  rw [offsets, getElem?_offsetsFrom, if_pos h, Nat.zero_add]

theorem mem_offsets {b : Block} {offset : Nat} :
    offset ∈ offsets b ↔ ∃ k < b.length, start b k = offset := by
  rw [List.mem_iff_getElem?]
  constructor
  · rintro ⟨k, hk⟩
    rw [offsets, getElem?_offsetsFrom] at hk
    split at hk
    · rename_i hlt
      exact ⟨k, hlt, by simpa using hk⟩
    · cases hk
  · rintro ⟨k, hlt, rfl⟩
    exact ⟨k, getElem?_offsets hlt⟩

theorem getElem?_placed (b : Block) (k : Nat) :
    (placed b)[k]? = b[k]?.map fun i => (i, start b k) := by
  rw [placed, List.zip, List.getElem?_zipWith, offsets, getElem?_offsetsFrom, Nat.zero_add]
  by_cases h : k < b.length
  · rw [if_pos h, List.getElem?_eq_getElem h]
    rfl
  · rw [List.getElem?_eq_none (Nat.le_of_not_lt h)]
    rfl

theorem mem_placed {b : Block} {i : Instruction} {offset : Nat} :
    (i, offset) ∈ placed b ↔ ∃ k, b[k]? = some i ∧ start b k = offset := by
  rw [List.mem_iff_getElem?]
  constructor
  · rintro ⟨k, hk⟩
    rw [getElem?_placed, Option.map_eq_some_iff] at hk
    obtain ⟨j, hj, heq⟩ := hk
    cases heq
    exact ⟨k, hj, rfl⟩
  · rintro ⟨k, hk, rfl⟩
    exact ⟨k, by rw [getElem?_placed, hk]; rfl⟩

theorem indexAt_eq_ok_iff {b : Block} (hb : b.Solid) {offset k : Nat} :
    b.indexAt offset = .ok k ↔ k < b.length ∧ start b k = offset := by
  constructor
  · intro h
    rw [indexAt] at h
    split at h
    · rename_i index hindex
      cases h
      obtain ⟨hlt, hget, -⟩ := List.idxOf?_eq_some_iff.1 hindex
      have hk : k < b.length := by simpa using hlt
      refine ⟨hk, ?_⟩
      have := List.getElem?_eq_some_iff.1 (getElem?_offsets hk)
      rw [← this.2, hget]
    · cases h
  · rintro ⟨hk, rfl⟩
    have hlen : k < (offsets b).length := by simpa using hk
    have hget : ∀ (l : Nat) (hl : l < (offsets b).length), (offsets b)[l] = start b l := by
      intro l hl
      exact (List.getElem?_eq_some_iff.1 (getElem?_offsets (by simpa using hl))).2
    have hindex : (offsets b).idxOf? (start b k) = some k := by
      refine List.idxOf?_eq_some_iff.2 ⟨hlen, hget k hlen, fun j hj => ?_⟩
      rw [hget]
      exact (start_lt_start hb hj (hj.trans hk)).ne
    rw [indexAt, hindex]

/-! ### Jumps from index to index -/

/-- The instruction with index `k` is a jump to the one with index `m`. -/
def LeadsTo (b : Block) (k m : Nat) : Prop :=
  m < b.length ∧ ∃ i, b[k]? = some i ∧ i.flow.isJump = true ∧
    i.target? (start b k) = some (start b m)

/-- Every jump leads to an instruction. -/
def Closed (b : Block) : Prop :=
  ∀ k i, b[k]? = some i → i.flow.isJump = true → ∃ m, LeadsTo b k m

theorem closed_iff {b : Block} :
    Closed b ↔ ∀ p ∈ placed b, p.1.flow.isJump = true →
      ∃ t ∈ offsets b, p.1.target? p.2 = some t := by
  constructor
  · rintro h ⟨i, offset⟩ hmem hjump
    obtain ⟨k, hi, rfl⟩ := mem_placed.1 hmem
    obtain ⟨m, hm, j, hj, -, ht⟩ := h k i hi hjump
    rw [hi] at hj
    cases hj
    exact ⟨start b m, mem_offsets.2 ⟨m, hm, rfl⟩, ht⟩
  · intro h k i hi hjump
    obtain ⟨t, hmem, ht⟩ := h (i, start b k) (mem_placed.2 ⟨k, hi, rfl⟩) hjump
    obtain ⟨m, hm, rfl⟩ := mem_offsets.1 hmem
    exact ⟨m, hm, i, hi, hjump, ht⟩

instance (b : Block) : Decidable b.Closed := decidable_of_iff _ closed_iff.symm

theorem isJump_of_target? {i : Instruction} {offset t : Nat} (h : i.target? offset = some t) :
    i.flow.isJump = true := by
  unfold Instruction.target? at h
  cases hflow : i.flow <;> simp_all [Flow.isJump]

/-- What the operand of a jump counts from: the end of a relative jump, else the start of the
code. -/
def base (b : Block) (flow : Flow) (k : Nat) : Nat :=
  if flow = .relativeJump then start b (k + 1) else 0

theorem target?_eq_some_iff {b : Block} {k t : Nat} {i : Instruction} (hi : b[k]? = some i)
    (hjump : i.flow.isJump = true) :
    i.target? (start b k) = some t ↔ base b i.flow k + i.operand.toNat = t ∧ t < limit32 := by
  have hlt : i.operand.toNat < limit32 := i.operand.toNat_lt
  unfold Instruction.target? base
  cases hflow : i.flow with
  | absoluteJump =>
    simp only [Option.some.injEq, reduceCtorEq, if_false, Nat.zero_add]
    exact ⟨fun h => ⟨h, h ▸ hlt⟩, And.left⟩
  | relativeJump =>
    rw [if_pos rfl, start_succ hi]
    simp only [Option.ite_none_right_eq_some, Option.some.injEq]
    constructor
    · rintro ⟨h, rfl⟩
      exact ⟨rfl, h⟩
    · rintro ⟨rfl, h⟩
      exact ⟨h, rfl⟩
  | suspension => simp [hflow, Flow.isJump] at hjump
  | other => simp [hflow, Flow.isJump] at hjump

theorem LeadsTo.target?_eq {b : Block} {k m : Nat} {i : Instruction} (h : b.LeadsTo k m)
    (hi : b[k]? = some i) :
    i.flow.isJump = true ∧ i.target? (start b k) = some (start b m) := by
  obtain ⟨-, i', hi', hjump, htarget⟩ := h
  rw [hi] at hi'
  cases hi'
  exact ⟨hjump, htarget⟩

theorem LeadsTo.unique {b : Block} (hb : b.Solid) {k m m' : Nat} (h : b.LeadsTo k m)
    (h' : b.LeadsTo k m') : m = m' := by
  obtain ⟨hm, i, hi, -, ht⟩ := h
  have ht' := (h'.target?_eq hi).2
  rw [ht] at ht'
  exact start_inj hb hm.le h'.1.le (Option.some.inj ht')

theorem checkTarget_eq_ok_iff {b : Block} {i : Instruction} {offset : Nat} :
    checkTarget (boundaries b) i offset = .ok () ↔
      (i.flow.isJump = true → ∃ m < b.length, i.target? offset = some (start b m)) := by
  by_cases hjump : i.flow.isJump = true
  · have hany : (i.target? offset).any (boundaries b).contains = true ↔
        ∃ m < b.length, i.target? offset = some (start b m) := by
      cases htarget : i.target? offset with
      | none => simp
      | some t =>
        rw [Option.any_some, Std.HashSet.contains_iff_mem, mem_boundaries, mem_offsets]
        simp [eq_comm]
    simp only [checkTarget, hjump, if_true, forall_true_left, ← hany]
    split <;> simp_all
  · simp [checkTarget, hjump]

/-- The check of the jump targets passes exactly when every jump leads to an instruction. -/
theorem checkTargets_eq_ok_iff {b : Block} : b.checkTargets = .ok () ↔ b.Closed := by
  rw [checkTargets, forM_eq_ok_iff]
  constructor
  · intro h k i hi hjump
    have hcheck := h (i, start b k) (mem_placed.2 ⟨k, hi, rfl⟩)
    obtain ⟨m, hm, ht⟩ := checkTarget_eq_ok_iff.1 hcheck hjump
    exact ⟨m, hm, i, hi, hjump, ht⟩
  · rintro h ⟨i, offset⟩ hmem
    obtain ⟨k, hi, rfl⟩ := mem_placed.1 hmem
    refine checkTarget_eq_ok_iff.2 fun hjump => ?_
    obtain ⟨m, hm, j, hj, -, ht⟩ := h k i hi hjump
    rw [hi] at hj
    cases hj
    exact ⟨m, hm, ht⟩

end Tripwire.Block
