import Tripwire.Proofs.Splice.Cuts

/-!
# Blocks with fronts

Breakpoints stand in front of instructions. A block with fronts is a block with
other instructions put in front of each of its own; a splice within a front
changes that front and nothing else.

* `weave`: a block with its fronts;
* `frontIndex`, `placeIndex`: where a front and the instruction behind it stand;
* `weave_eq_spliced`: a changed front, as a splice;
* `carry_placeIndex`, `carryCut_frontIndex`: where the splice takes them;
* `exists_weave_of_resized`: relocation keeps the fronts.
-/

namespace Tripwire

/-- The block `b`, whose first instruction has the number `m`, with the fronts of its
instructions. -/
def weave (front : Nat → Block) (m : Nat) : Block → Block
  | [] => []
  | i :: b => front m ++ i :: weave front (m + 1) b

/-- The index of the first instruction in the front of number `m`. -/
def frontIndex (front : Nat → Block) : Nat → Nat
  | 0 => 0
  | m + 1 => frontIndex front m + (front m).length + 1

/-- The index of the instruction behind the front of number `m`. -/
def placeIndex (front : Nat → Block) (m : Nat) : Nat := frontIndex front m + (front m).length

section Weave

variable {front front' : Nat → Block} {b c : Block} {m j : Nat}

@[simp] theorem weave_nil (front : Nat → Block) (m : Nat) : weave front m [] = [] := rfl

theorem weave_cons (front : Nat → Block) (m : Nat) (i : Instruction) (b : Block) :
    weave front m (i :: b) = front m ++ i :: weave front (m + 1) b := rfl

theorem frontIndex_succ (front : Nat → Block) (m : Nat) :
    frontIndex front (m + 1) = placeIndex front m + 1 := rfl

theorem weave_append (front : Nat → Block) (m : Nat) (a b : Block) :
    weave front m (a ++ b) = weave front m a ++ weave front (m + a.length) b := by
  induction a generalizing m with
  | nil => rfl
  | cons i a ih =>
    rw [List.cons_append, weave_cons, ih, weave_cons, List.length_cons, List.append_assoc,
      List.cons_append, Nat.add_right_comm m 1, Nat.add_assoc]

theorem weave_congr (h : ∀ j, m ≤ j → j < m + b.length → front j = front' j) :
    weave front m b = weave front' m b := by
  induction b generalizing m with
  | nil => rfl
  | cons i b ih =>
    rw [List.length_cons] at h
    rw [weave_cons, weave_cons, h m le_rfl (by omega),
      ih fun j hj hlt => h j (by omega) (by omega)]

theorem frontIndex_add_length (front : Nat → Block) (m : Nat) (b : Block) :
    frontIndex front m + (weave front m b).length = frontIndex front (m + b.length) := by
  induction b generalizing m with
  | nil => rfl
  | cons i b ih =>
    have htail := ih (m + 1)
    rw [frontIndex_succ, placeIndex] at htail
    rw [weave_cons, List.length_append, List.length_cons, List.length_cons, ← Nat.add_assoc m,
      Nat.add_right_comm m, ← htail]
    omega

theorem length_weave (front : Nat → Block) (b : Block) :
    (weave front 0 b).length = frontIndex front b.length := by
  have h := frontIndex_add_length front 0 b
  rwa [Nat.zero_add, frontIndex, Nat.zero_add] at h

theorem frontIndex_le_frontIndex (h : m ≤ j) : frontIndex front m ≤ frontIndex front j := by
  induction h with
  | refl => exact le_rfl
  | step _ ih =>
    rw [Nat.succ_eq_add_one, frontIndex_succ, placeIndex]
    omega

theorem placeIndex_lt_frontIndex (h : m < j) : placeIndex front m < frontIndex front j :=
  Nat.lt_of_lt_of_le (Nat.lt_succ_self _) (frontIndex_le_frontIndex h)

/-- The block around the front of number `m`. -/
theorem weave_split (front : Nat → Block) {i : Instruction} (hi : b[m]? = some i) :
    weave front 0 b = weave front 0 (b.take m) ++
      (front m ++ i :: weave front (m + 1) (b.drop (m + 1))) := by
  obtain ⟨hm, hget⟩ := List.getElem?_eq_some_iff.1 hi
  conv_lhs => rw [← List.take_append_drop m b, weave_append, List.drop_eq_getElem_cons hm, hget]
  rw [weave_cons, Nat.zero_add, List.length_take_of_le hm.le]

theorem length_weave_take (front : Nat → Block) (hm : m ≤ b.length) :
    (weave front 0 (b.take m)).length = frontIndex front m := by
  rw [length_weave, List.length_take_of_le hm]

theorem drop_frontIndex_weave (front : Nat → Block) {i : Instruction} (hi : b[m]? = some i) :
    (weave front 0 b).drop (frontIndex front m) =
      front m ++ i :: weave front (m + 1) (b.drop (m + 1)) := by
  obtain ⟨hm, -⟩ := List.getElem?_eq_some_iff.1 hi
  rw [weave_split front hi, ← length_weave_take front hm.le, List.drop_left]

theorem getElem?_weave_front (front : Nat → Block) (hm : m < b.length) {t : Nat}
    (ht : t < (front m).length) :
    (weave front 0 b)[frontIndex front m + t]? = (front m)[t]? := by
  rw [← List.getElem?_drop, drop_frontIndex_weave front (List.getElem?_eq_getElem hm),
    List.getElem?_append_left ht]

theorem getElem?_weave_place (front : Nat → Block) (hm : m < b.length) :
    (weave front 0 b)[placeIndex front m]? = b[m]? := by
  have hi := List.getElem?_eq_getElem hm
  rw [placeIndex, ← List.getElem?_drop, drop_frontIndex_weave front hi,
    List.getElem?_append_right le_rfl, Nat.sub_self, List.getElem?_cons_zero, hi]

theorem placeIndex_inj (h : placeIndex front m = placeIndex front j) : m = j := by
  rcases lt_trichotomy m j with hlt | heq | hlt
  · have hplace : placeIndex front m < frontIndex front j := placeIndex_lt_frontIndex hlt
    rw [h, placeIndex] at hplace
    omega
  · exact heq
  · have hplace : placeIndex front j < frontIndex front m := placeIndex_lt_frontIndex hlt
    rw [← h, placeIndex] at hplace
    omega

theorem weave_empty (m : Nat) (b : Block) : weave (fun _ => []) m b = b := by
  induction b generalizing m with
  | nil => rfl
  | cons i b ih => rw [weave_cons, List.nil_append, ih]

theorem frontIndex_empty (m : Nat) : frontIndex (fun _ => []) m = m := by
  induction m with
  | zero => rfl
  | succ m ih =>
    rw [frontIndex_succ, placeIndex, ih]
    rfl

/-- Every instruction of a block with fronts is in a front or stands behind its own. -/
theorem exists_of_getElem?_weave {l : Nat} {i : Instruction} (h : (weave front m b)[l]? = some i) :
    (∃ j, i ∈ front j) ∨
      ∃ j, b[j]? = some i ∧ frontIndex front m + l = placeIndex front (m + j) := by
  induction b generalizing m l with
  | nil => simp at h
  | cons i₀ b ih =>
    rw [weave_cons] at h
    by_cases hfront : l < (front m).length
    · rw [List.getElem?_append_left hfront] at h
      exact .inl ⟨m, List.mem_of_getElem? h⟩
    · rw [List.getElem?_append_right (by omega)] at h
      cases hl : l - (front m).length with
      | zero =>
        rw [hl, List.getElem?_cons_zero] at h
        refine .inr ⟨0, h, ?_⟩
        rw [Nat.add_zero, placeIndex]
        omega
      | succ l' =>
        rw [hl, List.getElem?_cons_succ] at h
        rcases ih h with hmem | ⟨j, hj, hplace⟩
        · exact .inl hmem
        · rw [frontIndex_succ, placeIndex, Nat.add_right_comm m 1 j] at hplace
          exact .inr ⟨j + 1, hj, by rw [← Nat.add_assoc]; omega⟩

/-! ### A changed front -/

section Change

variable {before old new after : Block}

/-- A change within the front of number `m` is a splice. -/
theorem weave_eq_spliced (hm : m < b.length) (hfront : front m = before ++ old ++ after)
    (hfront' : front' m = before ++ new ++ after) (hsame : ∀ j, j ≠ m → front' j = front j) :
    weave front' 0 b =
      (weave front 0 b).spliced (frontIndex front m + before.length) old.length new := by
  have hi := List.getElem?_eq_getElem hm
  have hleft : weave front' 0 (b.take m) = weave front 0 (b.take m) := by
    refine weave_congr fun j _ hj => hsame j ?_
    rw [List.length_take_of_le hm.le] at hj
    omega
  have hright : weave front' (m + 1) (b.drop (m + 1)) = weave front (m + 1) (b.drop (m + 1)) :=
    weave_congr fun j hj _ => hsame j (by omega)
  have htake := length_weave_take front hm.le
  rw [weave_split front' hi, weave_split front hi, hleft, hright, hfront, hfront', Block.spliced,
    ← htake]
  simp only [List.append_assoc, Nat.add_assoc]
  rw [List.take_length_add_append, List.drop_length_add_append, List.take_left,
    List.append_assoc]
  congr 2
  rw [← List.length_append, ← List.append_assoc before, List.drop_left]

theorem frontIndex_of_le (hsame : ∀ j, j ≠ m → front' j = front j) (hj : j ≤ m) :
    frontIndex front' j = frontIndex front j := by
  induction j with
  | zero => rfl
  | succ j ih =>
    rw [frontIndex_succ, frontIndex_succ, placeIndex, placeIndex, ih (by omega),
      hsame j (by omega)]

theorem frontIndex_of_lt (hfront : front m = before ++ old ++ after)
    (hfront' : front' m = before ++ new ++ after) (hsame : ∀ j, j ≠ m → front' j = front j)
    (hj : m < j) : frontIndex front' j + old.length = frontIndex front j + new.length := by
  induction hj with
  | refl =>
    rw [Nat.succ_eq_add_one, frontIndex_succ, frontIndex_succ, placeIndex, placeIndex,
      frontIndex_of_le hsame le_rfl, hfront, hfront']
    simp only [List.length_append]
    omega
  | step hj ih =>
    rename_i j
    rw [Nat.succ_eq_add_one, frontIndex_succ, frontIndex_succ, placeIndex, placeIndex,
      hsame j (Nat.ne_of_gt hj)]
    omega

/-- The splice leaves the instructions of the block where their fronts put them. -/
theorem carry_placeIndex (hfront : front m = before ++ old ++ after)
    (hfront' : front' m = before ++ new ++ after) (hsame : ∀ j, j ≠ m → front' j = front j)
    (j : Nat) :
    Stays (frontIndex front m + before.length) old.length (placeIndex front j) ∧
      carry (frontIndex front m + before.length) old.length new.length (placeIndex front j) =
        placeIndex front' j := by
  have hlen : (front m).length = before.length + old.length + after.length := by
    rw [hfront, List.length_append, List.length_append]
  -- The instruction stands in front of the changed front, right behind it, or further on.
  rcases lt_trichotomy j m with hj | rfl | hj
  · have hlt : placeIndex front j < frontIndex front m := placeIndex_lt_frontIndex hj
    refine ⟨.inl (by omega), ?_⟩
    rw [carry_of_lt _ _ (by omega), placeIndex, placeIndex, frontIndex_of_le hsame hj.le,
      hsame j hj.ne]
  · have hplace : placeIndex front j = frontIndex front j + (front j).length := rfl
    have hlen' : (front' j).length = before.length + new.length + after.length := by
      rw [hfront', List.length_append, List.length_append]
    refine ⟨.inr (by omega), ?_⟩
    rw [carry_of_le _ (by omega), placeIndex, placeIndex, frontIndex_of_le hsame le_rfl]
    omega
  · have hlt : placeIndex front m < frontIndex front j := placeIndex_lt_frontIndex hj
    have hplace : placeIndex front m = frontIndex front m + (front m).length := rfl
    have hmove := frontIndex_of_lt hfront hfront' hsame hj
    refine ⟨.inr (by rw [placeIndex]; omega), ?_⟩
    rw [carry_of_le _ (by rw [placeIndex]; omega), placeIndex, placeIndex, hsame j hj.ne']
    omega

/-- The splice leaves the cuts in front of the fronts. -/
theorem carryCut_frontIndex (hfront : front m = before ++ old ++ after)
    (hfront' : front' m = before ++ new ++ after) (hsame : ∀ j, j ≠ m → front' j = front j)
    (j : Nat) :
    (frontIndex front j ≤ frontIndex front m + before.length ∨
        frontIndex front m + before.length + old.length < frontIndex front j) ∧
      carryCut (frontIndex front m + before.length) old.length new.length (frontIndex front j) =
        frontIndex front' j := by
  have hlen : (front m).length = before.length + old.length + after.length := by
    rw [hfront, List.length_append, List.length_append]
  rcases Nat.lt_or_ge m j with hj | hj
  · have hlt : placeIndex front m < frontIndex front j := placeIndex_lt_frontIndex hj
    have hplace : placeIndex front m = frontIndex front m + (front m).length := rfl
    have hmove := frontIndex_of_lt hfront hfront' hsame hj
    refine ⟨.inr (by omega), ?_⟩
    rw [carryCut_of_lt _ _ (by omega)]
    omega
  · have hle : frontIndex front j ≤ frontIndex front m := frontIndex_le_frontIndex hj
    refine ⟨.inl (by omega), ?_⟩
    rw [carryCut_of_le _ _ (by omega), frontIndex_of_le hsame hj]

end Change

/-- Relocation keeps the fronts, as they hold no jumps. -/
theorem exists_weave_of_resized (h : List.Forall₂ Instruction.Resized (weave front m b) c)
    (hfront : ∀ j, ∀ i ∈ front j, i.flow.isJump = false) :
    ∃ b', c = weave front m b' ∧ List.Forall₂ Instruction.Resized b b' := by
  induction b generalizing m c with
  | nil =>
    cases h
    exact ⟨[], rfl, .nil⟩
  | cons i b ih =>
    rw [weave_cons] at h
    obtain ⟨before, rest, rfl, hbefore, hrest⟩ := exists_append_of_forall₂ h
    cases hrest with
    | cons hi htail =>
      rename_i i' tail
      obtain ⟨b', rfl, hb'⟩ := ih htail
      exact ⟨i' :: b', by rw [Block.eq_of_resized (hfront m) hbefore, weave_cons], .cons hi hb'⟩

end Weave

end Tripwire
