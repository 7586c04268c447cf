import Tripwire.Assembly.Layout
import Tripwire.Proofs.Block.Width
import Tripwire.Proofs.Outcome

/-!
# Layout of labels

Every pass of the layout only widens jumps, so that the offsets and the operands
only rise. When no width changes any more, the operands fit the offsets, and no
jump is wider than the last of its operands needs.

* `Layout.Aims`: the operand with which a jump leads to its target;
* `Layout.pass_none`, `Layout.pass_some`: what one pass does to each instruction;
* `Layout.Rising`: no operand is above the one that comes next, with `Rising.pass`;
* `Layout.settle_spec`: what the settled layout is;
* `Layout.Realizes`: the instructions of some items, with `realizes_of_layout`;
* `layout_spec`: the layout of the items that source text can say.
-/

namespace Tripwire

namespace Layout

open Block

variable {targets : List (Option LabelTarget)} {b w : Block}

/-- The operand `x` leads the jump `i` with index `l` to the instruction with index `m`. -/
def Aims (b : Block) (l m x : Nat) (i : Instruction) : Prop := base b i.flow l + x = start b m

/-- Labels are the operands of jumps, and mark instructions. -/
structure Labelled (targets : List (Option LabelTarget)) (b : Block) : Prop where
  length_eq : targets.length = b.length
  isJump : ∀ (l : Nat) (t : LabelTarget) (i : Instruction), targets[l]? = some (some t) →
    b[l]? = some i → i.flow.isJump = true
  index_lt : ∀ (l : Nat) (t : LabelTarget), targets[l]? = some (some t) → t.index < b.length

theorem place_none {starts : Array Nat} {i i' : Instruction} {offset : Nat} :
    place starts i offset none = .ok i' ↔ i' = i := by
  simp [place, eq_comm]

/-- A jump gets the operand that leads to its target. -/
theorem place_some {l : Nat} {t : LabelTarget} {i i' : Instruction} (hi : b[l]? = some i)
    (hjump : i.flow.isJump = true) (ht : t.index < b.length) :
    place b.offsets.toArray i (start b l) (some t) = .ok i' ↔
      ∃ x, Aims b l t.index x i ∧ i' = widen i (UInt32.ofNat x) := by
  have hgoal : b.offsets.toArray.getD t.index 0 = start b t.index := by
    simp [getElem?_offsets ht]
  have hnext := start_succ hi
  unfold place Aims base
  simp only [hgoal]
  cases hflow : i.flow with
  | absoluteJump =>
    simp only [reduceCtorEq, if_false, Nat.zero_add, Except.ok.injEq, exists_eq_left]
    exact eq_comm
  | relativeJump =>
    simp only [if_true, hnext]
    by_cases hle : start b l + i.size ≤ start b t.index
    · rw [if_pos hle, Except.ok.injEq]
      constructor
      · rintro rfl
        exact ⟨_, Nat.add_sub_cancel' hle, rfl⟩
      · rintro ⟨x, hx, rfl⟩
        rw [← hx, Nat.add_sub_cancel_left]
    · rw [if_neg hle]
      constructor
      · intro h
        cases h
      · rintro ⟨x, hx, -⟩
        omega
  | suspension => simp [hflow, Flow.isJump] at hjump
  | other => simp [hflow, Flow.isJump] at hjump

/-! ### One pass -/

/-- The instructions of `w` are those of `b`, and no narrower. -/
def Widened (b w : Block) : Prop :=
  List.Forall₂ (fun i i' : Instruction => i'.opcode = i.opcode ∧ i.width ≤ i'.width) b w

namespace Widened

variable {a : Block}

theorem trans (h : Widened a b) (h' : Widened b w) : Widened a w := by
  refine forall₂_trans (fun i i' i'' hab hbc => ?_) h h'
  exact ⟨hbc.1.trans hab.1, hab.2.trans hbc.2⟩

theorem within (h : Widened b w) : Within w b := (h.imp fun _ _ hi => hi.2).flip

theorem size_le (h : Widened b w) : size b ≤ size w := by
  have hle := start_le_of_within h.within b.length
  rwa [start_length, h.length_eq, start_length] at hle

end Widened

theorem Labelled.widened (hlab : Labelled targets b) (h : Widened b w) : Labelled targets w where
  length_eq := hlab.length_eq.trans h.length_eq
  isJump l t i' ht hi' := by
    obtain ⟨i, hi, hopcode, -⟩ := exists_getElem?_left h hi'
    have hflow : i'.flow = i.flow := congrArg Opcode.flow hopcode
    rw [hflow]
    exact hlab.isJump l t i ht hi
  index_lt l t ht := by
    rw [← h.length_eq]
    exact hlab.index_lt l t ht

theorem exists_place_of_pass (hlab : Labelled targets b) (h : pass targets b = .ok w) {l : Nat}
    {i : Instruction} (hi : b[l]? = some i) : ∃ target i', targets[l]? = some target ∧
      w[l]? = some i' ∧ place b.offsets.toArray i (start b l) target = .ok i' := by
  have hall := mapM_eq_ok_iff.1 h
  obtain ⟨hl, -⟩ := List.getElem?_eq_some_iff.1 hi
  rw [← hlab.length_eq] at hl
  obtain ⟨target, htarget⟩ : ∃ target, targets[l]? = some target :=
    ⟨_, List.getElem?_eq_getElem hl⟩
  have hplaced : b.placed[l]? = some (i, start b l) := by
    rw [getElem?_placed, hi]
    rfl
  have hzip : (b.placed.zip targets)[l]? = some ((i, start b l), target) :=
    List.getElem?_zip_eq_some.2 ⟨hplaced, htarget⟩
  obtain ⟨i', hi', hplace⟩ := exists_getElem?_right hall hzip
  exact ⟨_, i', htarget, hi', hplace⟩

theorem length_of_pass (hlab : Labelled targets b) (h : pass targets b = .ok w) :
    w.length = b.length := by
  have hlen := (mapM_eq_ok_iff.1 h).length_eq
  rw [List.length_zip, placed, List.length_zip, length_offsets, hlab.length_eq] at hlen
  omega

/-- An instruction without a label stays as it is. -/
theorem pass_none (hlab : Labelled targets b) (h : pass targets b = .ok w) {l : Nat}
    (ht : targets[l]? = some none) : w[l]? = b[l]? := by
  cases hi : b[l]? with
  | none =>
    rw [List.getElem?_eq_none_iff] at hi ⊢
    rwa [length_of_pass hlab h]
  | some i =>
    obtain ⟨target, i', htarget, hi', hplace⟩ := exists_place_of_pass hlab h hi
    rw [ht] at htarget
    cases htarget
    rw [hi', place_none.1 hplace]

/-- A jump to a label gets the operand for the offsets of before. -/
theorem pass_some (hlab : Labelled targets b) (h : pass targets b = .ok w) {l : Nat}
    {t : LabelTarget} {i : Instruction} (ht : targets[l]? = some (some t)) (hi : b[l]? = some i) :
    ∃ x, Aims b l t.index x i ∧ w[l]? = some (widen i (UInt32.ofNat x)) := by
  obtain ⟨target, i', htarget, hi', hplace⟩ := exists_place_of_pass hlab h hi
  rw [ht] at htarget
  cases htarget
  obtain ⟨x, hx, rfl⟩ := (place_some hi (hlab.isJump l t i ht hi) (hlab.index_lt l t ht)).1 hplace
  exact ⟨x, hx, hi'⟩

theorem widened_of_pass (hlab : Labelled targets b) (h : pass targets b = .ok w) :
    Widened b w := by
  refine forall₂_of_getElem? (length_of_pass hlab h).symm fun l i i' hi hi' => ?_
  obtain ⟨target, i'', htarget, hi'', hplace⟩ := exists_place_of_pass hlab h hi
  rw [hi'] at hi''
  cases hi''
  cases target with
  | none =>
    rw [place_none.1 hplace]
    exact ⟨rfl, le_rfl⟩
  | some t =>
    obtain ⟨x, -, rfl⟩ :=
      (place_some hi (hlab.isJump l t i htarget hi) (hlab.index_lt l t htarget)).1 hplace
    exact ⟨rfl, le_max_left _ _⟩

/-! ### Passes until no width changes -/

/-- No jump to a label is wider than its operand needs, nor is its operand above the next one. -/
def Rising (targets : List (Option LabelTarget)) (b : Block) : Prop :=
  ∀ (l : Nat) (t : LabelTarget) (i : Instruction), targets[l]? = some (some t) → b[l]? = some i →
    i.width = minimalWidth i.operand ∧ ∀ x, Aims b l t.index x i → i.operand.toNat ≤ x

/-- An operand that leads to an instruction is within the code. -/
theorem toNat_of_aims {l m x : Nat} {i : Instruction} (h : Aims b l m x i)
    (hsize : size b < limit32) : (UInt32.ofNat x).toNat = x := by
  have hle := start_le_size b m
  unfold Aims at h
  refine UInt32.toNat_ofNat_of_lt' ?_
  simp only [UInt32.size]
  simp only [limit32] at hsize
  omega

/-- Where the code has become wider, jumps need no lower operands. -/
theorem le_of_aims {l m x y : Nat} {i i' : Instruction} (h : Within w b) (hflow : i'.flow = i.flow)
    (hx : Aims b l m x i) (hy : Aims w l m y i') : x ≤ y := by
  unfold Aims base at hx hy
  rw [hflow] at hy
  split at hx
  · rename_i hrelative
    rw [if_pos hrelative] at hy
    rcases Nat.lt_or_ge m (l + 1) with hlt | hge
    · have := start_mono b hlt.le
      omega
    · have := start_add_start_le_of_within h hge
      omega
  · rename_i habsolute
    rw [if_neg habsolute] at hy
    have := start_le_of_within h m
    omega

theorem Rising.pass (hlab : Labelled targets b) (hr : Rising targets b)
    (h : pass targets b = .ok w) (hsize : size b < limit32) : Rising targets w := by
  intro l t i' ht hi'
  have hwidened := widened_of_pass hlab h
  obtain ⟨i, hi, hopcode, -⟩ := exists_getElem?_left hwidened hi'
  obtain ⟨x, hx, hget⟩ := pass_some hlab h ht hi
  rw [hi'] at hget
  cases hget
  obtain ⟨hwidth, hnext⟩ := hr l t i ht hi
  have hx' := toNat_of_aims hx hsize
  have hmin : minimalWidth i.operand ≤ minimalWidth (UInt32.ofNat x) := by
    refine minimalWidth_mono ?_
    rw [hx']
    exact hnext x hx
  refine ⟨?_, fun y hy => ?_⟩
  · show max i.width (minimalWidth (UInt32.ofNat x)) = minimalWidth (UInt32.ofNat x)
    omega
  · show (UInt32.ofNat x).toNat ≤ y
    rw [hx']
    exact le_of_aims hwidened.within rfl hx hy

/-- The settled layout: labelled jumps have the operands that lead to their targets, and are no
wider than these need. -/
structure Solved (targets : List (Option LabelTarget)) (b w : Block) : Prop where
  widened : Widened b w
  unlabelled : ∀ l : Nat, targets[l]? = some none → w[l]? = b[l]?
  labelled : ∀ (l : Nat) (t : LabelTarget), targets[l]? = some (some t) →
    ∃ i, w[l]? = some i ∧ i.width = minimalWidth i.operand ∧ Aims w l t.index i.operand.toNat i

theorem widened_of_settle {passes : Nat} (hlab : Labelled targets b)
    (h : settle targets passes b = .ok w) : Widened b w := by
  induction passes generalizing b with
  | zero => cases h
  | succ passes ih =>
    obtain ⟨next, hnext, hrest⟩ := bind_eq_ok_iff.1 h
    have hwidened := widened_of_pass hlab hnext
    split at hrest
    · rw [pure_eq_ok_iff] at hrest
      rwa [← hrest]
    · exact hwidened.trans (ih (hlab.widened hwidened) hrest)

/-- Passes that end give a solved layout. -/
theorem settle_spec {passes : Nat} (hlab : Labelled targets b) (hr : Rising targets b)
    (h : settle targets passes b = .ok w) (hsize : size w < limit32) : Solved targets b w := by
  induction passes generalizing b with
  | zero => cases h
  | succ passes ih =>
    have hlt : size b < limit32 := Nat.lt_of_le_of_lt (widened_of_settle hlab h).size_le hsize
    obtain ⟨next, hnext, hrest⟩ := bind_eq_ok_iff.1 h
    have hwidened := widened_of_pass hlab hnext
    have hlab' := hlab.widened hwidened
    have hr' := hr.pass hlab hnext hlt
    split at hrest
    · rename_i hsame
      rw [pure_eq_ok_iff] at hrest
      subst hrest
      -- The widths have not changed, so the operands fit the offsets they were made for.
      have hwidth : List.Forall₂ (fun i i' : Instruction => i'.width = i.width) b next := by
        refine forall₂_of_getElem? hwidened.length_eq fun l i i' hi hi' => ?_
        have hget := congrArg (fun widths : List Nat => widths[l]?) hsame
        simpa [hi, hi'] using hget
      refine ⟨hwidened, fun l ht => pass_none hlab hnext ht, fun l t ht => ?_⟩
      have hl : l < b.length := by
        rw [← hlab.length_eq]
        exact (List.getElem?_eq_some_iff.1 ht).1
      obtain ⟨x, hx, hi'⟩ := pass_some hlab hnext ht (List.getElem?_eq_getElem hl)
      refine ⟨_, hi', (hr' l t _ ht hi').1, ?_⟩
      show base next b[l].flow l + (UInt32.ofNat x).toNat = start next t.index
      rw [toNat_of_aims hx hlt, start_eq_of_width_eq hwidth]
      have hbase : base next b[l].flow l = base b b[l].flow l := by
        unfold base
        rw [start_eq_of_width_eq hwidth]
      rw [hbase]
      exact hx
    · have hsolved := ih hlab' hr' hrest
      exact ⟨hwidened.trans hsolved.widened,
        fun l ht => (hsolved.unlabelled l ht).trans (pass_none hlab hnext ht), hsolved.labelled⟩

end Layout

/-! ### The layout of items -/

/-- The instructions of the items. Values are kept, labels become what leads to the items that they
mark, and no instruction is wider than its operand needs. -/
structure Layout.Realizes (labels : Labels) (items : List Item) (b : Block) : Prop where
  opcodes : List.Forall₂ (fun item i => i.opcode = item.opcode) items b
  narrow : ∀ i ∈ b, i.width = minimalWidth i.operand
  operand_eq : ∀ (l : Nat) (item : Item) (i : Instruction) (operand : UInt32),
    items[l]? = some item → b[l]? = some i → item.operand = .value operand → i.operand = operand
  target_eq : ∀ (l : Nat) (item : Item) (i : Instruction) (name : String),
    items[l]? = some item → b[l]? = some i → item.operand = .label name →
      ∃ m, labels.find? name = some m ∧ m < b.length ∧
        i.target? (b.start l) = some (b.start m)

/-- An item that source text can say: not a padding word, and a jump only with a label. -/
structure Item.Written (item : Item) : Prop where
  ne_extendedArg : item.opcode ≠ .extendedArg
  labelled : item.opcode.flow.isJump = true → ∃ name, item.operand = .label name

namespace Item

variable {labels : Labels} {count : Nat} {item : Item}

theorem target_eq_none (h : item.target labels count = .ok none) :
    ∃ operand, item.operand = .value operand := by
  unfold target at h
  cases hoperand : item.operand with
  | value operand => exact ⟨operand, rfl⟩
  | label name =>
    simp only [hoperand] at h
    split at h
    · split at h
      · cases h
      · split at h <;> cases h
    · cases h

/-- A label that has a target belongs to a jump and marks an item. -/
theorem target_eq_some {t : LabelTarget} (h : item.target labels count = .ok (some t)) :
    item.operand = .label t.label ∧ item.opcode.flow.isJump = true ∧
      labels.find? t.label = some t.index ∧ t.index < count := by
  unfold target at h
  cases hoperand : item.operand with
  | value operand =>
    simp only [hoperand] at h
    cases h
  | label name =>
    simp only [hoperand] at h
    split at h
    · rename_i hjump
      split at h
      · cases h
      · rename_i index hfind
        split at h
        · rename_i hlt
          cases h
          exact ⟨rfl, hjump, hfind, hlt⟩
        · cases h
    · cases h

/-- An item with a label has a target only as a jump to an item. -/
theorem target_of_label {name : String} {target : Option LabelTarget}
    (hname : item.operand = .label name) (h : item.target labels count = .ok target) :
    item.opcode.flow.isJump = true ∧
      ∃ m, target = some ⟨m, name⟩ ∧ labels.find? name = some m ∧ m < count := by
  cases target with
  | none =>
    obtain ⟨operand, hvalue⟩ := target_eq_none h
    rw [hname] at hvalue
    cases hvalue
  | some t =>
    obtain ⟨hlabel, hjump, hfind, hlt⟩ := target_eq_some h
    rw [hname] at hlabel
    cases hlabel
    exact ⟨hjump, t.index, rfl, hfind, hlt⟩

theorem opcode_draft (item : Item) : item.draft.opcode = item.opcode := by
  unfold draft
  cases item.operand <;> rfl

theorem flow_draft (item : Item) : item.draft.flow = item.opcode.flow :=
  congrArg Opcode.flow item.opcode_draft

theorem width_draft (item : Item) : item.draft.width = minimalWidth item.draft.operand := by
  unfold draft
  cases item.operand <;> rfl

end Item

section Items

variable {labels : Labels} {items : List Item} {targets : List (Option LabelTarget)} {w : Block}

/-- Where there is a target stands the item that it belongs to. -/
theorem exists_item_of_target (h : targetsOf labels items = .ok targets) {l : Nat}
    {target : Option LabelTarget} {i : Instruction} (ht : targets[l]? = some target)
    (hi : (items.map Item.draft)[l]? = some i) :
    ∃ item, items[l]? = some item ∧ i = item.draft ∧
      item.target labels items.length = .ok target := by
  obtain ⟨item, hitem, hok⟩ := exists_getElem?_left (mapM_eq_ok_iff.1 h) ht
  rw [List.getElem?_map, hitem, Option.map_some, Option.some.injEq] at hi
  exact ⟨item, hitem, hi.symm, hok⟩

theorem labelled_of_targetsOf (h : targetsOf labels items = .ok targets) :
    Layout.Labelled targets (items.map Item.draft) := by
  have hall := mapM_eq_ok_iff.1 h
  refine ⟨by rw [List.length_map, hall.length_eq], fun l t i ht hi => ?_, fun l t ht => ?_⟩
  · obtain ⟨item, -, rfl, hok⟩ := exists_item_of_target h ht hi
    rw [item.flow_draft]
    exact (Item.target_eq_some hok).2.1
  · obtain ⟨item, -, hok⟩ := exists_getElem?_left hall ht
    rw [List.length_map]
    exact (Item.target_eq_some hok).2.2.2

theorem rising_of_targetsOf (h : targetsOf labels items = .ok targets) :
    Layout.Rising targets (items.map Item.draft) := by
  intro l t i ht hi
  obtain ⟨item, -, rfl, hok⟩ := exists_item_of_target h ht hi
  have hlabel := (Item.target_eq_some hok).1
  refine ⟨item.width_draft, fun x _ => ?_⟩
  simp [Item.draft, hlabel, Instruction.bare, Instruction.narrow]

/-- Every instruction of a solved layout is that of an item. -/
theorem exists_item_of_solved (htargets : targetsOf labels items = .ok targets)
    (hsolved : Layout.Solved targets (items.map Item.draft) w) {l : Nat} {i : Instruction}
    (hi : w[l]? = some i) : ∃ item target, items[l]? = some item ∧ targets[l]? = some target ∧
      item.target labels items.length = .ok target ∧ i.opcode = item.opcode := by
  obtain ⟨i₀, hi₀, hopcode, -⟩ := exists_getElem?_left hsolved.widened hi
  rw [List.getElem?_map, Option.map_eq_some_iff] at hi₀
  obtain ⟨item, hitem, rfl⟩ := hi₀
  obtain ⟨target, htarget, hok⟩ := exists_getElem?_right (mapM_eq_ok_iff.1 htargets) hitem
  exact ⟨item, target, hitem, htarget, hok, hopcode.trans item.opcode_draft⟩

/-- The layout of items realizes them. -/
theorem realizes_of_layout (h : layout labels items = .ok w) (hsize : w.size < limit32) :
    Layout.Realizes labels items w := by
  obtain ⟨targets, htargets, hsettle⟩ := bind_eq_ok_iff.1 h
  have hlab := labelled_of_targetsOf htargets
  have hsolved := Layout.settle_spec hlab (rising_of_targetsOf htargets) hsettle hsize
  have hlength : w.length = items.length := by rw [← hsolved.widened.length_eq, List.length_map]
  refine ⟨forall₂_of_getElem? hlength.symm fun l item i hitem hi => ?_, fun i hi => ?_,
    fun l item i operand hitem hi hoperand => ?_, fun l item i name hitem hi hname => ?_⟩
  · obtain ⟨item', target, hitem', -, -, hopcode⟩ := exists_item_of_solved htargets hsolved hi
    rw [hitem] at hitem'
    cases hitem'
    exact hopcode
  · obtain ⟨l, hl⟩ := List.mem_iff_getElem?.1 hi
    obtain ⟨item, target, hitem, htarget, -, -⟩ := exists_item_of_solved htargets hsolved hl
    cases target with
    | none =>
      have hsame := hsolved.unlabelled l htarget
      rw [hl, List.getElem?_map, hitem] at hsame
      cases hsame
      exact item.width_draft
    | some t =>
      obtain ⟨i', hi', hwidth, -⟩ := hsolved.labelled l t htarget
      rw [hl] at hi'
      cases hi'
      exact hwidth
  · obtain ⟨target, htarget, hok⟩ := exists_getElem?_right (mapM_eq_ok_iff.1 htargets) hitem
    cases target with
    | none =>
      have hsame := hsolved.unlabelled l htarget
      rw [hi, List.getElem?_map, hitem] at hsame
      have hdraft : i = item.draft := by simpa using hsame
      rw [hdraft, Item.draft, hoperand]
      rfl
    | some t =>
      rw [(Item.target_eq_some hok).1] at hoperand
      cases hoperand
  · obtain ⟨target, htarget, hok⟩ := exists_getElem?_right (mapM_eq_ok_iff.1 htargets) hitem
    obtain ⟨-, m, rfl, hfind, hlt⟩ := Item.target_of_label hname hok
    obtain ⟨i', hi', -, haims⟩ := hsolved.labelled l _ htarget
    rw [hi] at hi'
    cases hi'
    have hjump := (hlab.widened hsolved.widened).isJump l _ i htarget hi
    exact ⟨m, hfind, hlength ▸ hlt, (Block.target?_eq_some_iff hi hjump).2
      ⟨haims, (Block.start_le_size w m).trans_lt hsize⟩⟩

/-- The layout of written items has least widths, and its jumps lead to instructions. -/
theorem layout_spec (hwritten : ∀ item ∈ items, item.Written) (h : layout labels items = .ok w)
    (hsize : w.size < limit32) : w.length = items.length ∧
      (∀ i ∈ w, i.opcode ≠ .extendedArg ∧ i.width = minimalWidth i.operand) ∧ w.Closed := by
  have hrealizes := realizes_of_layout h hsize
  refine ⟨hrealizes.opcodes.length_eq.symm, fun i hi => ⟨?_, hrealizes.narrow i hi⟩,
    fun l i hi hjump => ?_⟩
  · obtain ⟨item, hitem, hopcode⟩ := exists_of_mem_right hrealizes.opcodes hi
    exact hopcode ▸ (hwritten item hitem).ne_extendedArg
  · obtain ⟨item, hitem, hopcode⟩ := exists_getElem?_left hrealizes.opcodes hi
    have hflow : i.flow = item.opcode.flow := congrArg Opcode.flow hopcode
    obtain ⟨name, hname⟩ := (hwritten item (List.mem_of_getElem? hitem)).labelled (hflow ▸ hjump)
    obtain ⟨m, -, hm, htarget⟩ := hrealizes.target_eq l item i name hitem hi hname
    exact ⟨m, hm, i, hi, hjump, htarget⟩

end Items

end Tripwire
