import Tripwire.Proofs.Assembly.Builder

/-!
# The least layout

No jump to a label is widened more than three times, so the passes of the layout end
without a limit. They fail only for a relative jump that leads back, and then the
first one does. A layout in which every operand fits is nowhere narrower than the
passes are, so the one in which they end is the least.

* `Layout.Stops`: the passes without a limit, with `Layout.settle_of_stops`;
* `Layout.leeway`: the words by which jumps may still grow, with `Layout.exists_stops`;
* `Layout.Forward`: relative jumps to later items, with `Layout.exists_pass`;
* `Layout.Resolves`: the labels that can be resolved, with `Layout.exists_layout_iff`;
* `Layout.Fits`: widths that suit the operands they give rise to;
* `le_of_fits`: no widths that fit are less than those of the layout;
* `Builder.finish_spec`: when a function can be built, and from which layout.
-/

namespace Tripwire

namespace Layout

open Block

variable {targets : List (Option LabelTarget)} {b w : Block}

/-! ### The number of passes -/

/-- The passes from `b` on without a limit: the `n`-th changes no width or fails, with the outcome
`out`. -/
inductive Stops (targets : List (Option LabelTarget)) :
    Block → Nat → Except AssemblyFault Block → Prop
  | failed {b : Block} {fault : AssemblyFault} (h : pass targets b = .error fault) :
      Stops targets b 1 (.error fault)
  | settled {b next : Block} (h : pass targets b = .ok next)
      (hsame : next.map Instruction.width = b.map Instruction.width) : Stops targets b 1 (.ok next)
  | again {b next : Block} {n : Nat} {out : Except AssemblyFault Block}
      (h : pass targets b = .ok next)
      (hchanged : next.map Instruction.width ≠ b.map Instruction.width)
      (hrest : Stops targets next n out) : Stops targets b (n + 1) out

/-- A limit that is not reached does not show. -/
theorem settle_of_stops {n passes : Nat} {out : Except AssemblyFault Block}
    (h : Stops targets b n out) (hle : n ≤ passes) : settle targets passes b = out := by
  induction h generalizing passes with
  | failed h =>
    obtain ⟨passes, rfl⟩ := Nat.exists_eq_add_of_le' hle
    rw [settle, h]
    rfl
  | settled h hsame =>
    obtain ⟨passes, rfl⟩ := Nat.exists_eq_add_of_le' hle
    rw [settle, h]
    exact if_pos hsame
  | again h hchanged hrest ih =>
    obtain ⟨passes, rfl⟩ := Nat.exists_eq_add_of_le' hle
    rw [← Nat.add_assoc, settle, h]
    exact (if_neg hchanged).trans (ih (Nat.le_add_left ..))

/-- The words by which the jumps to labels may still grow. -/
def leeway : List (Option LabelTarget) → Block → Nat
  | some _ :: targets, i :: b => (maximalWidth - i.width) + leeway targets b
  | none :: targets, _ :: b => leeway targets b
  | _, _ => 0

theorem leeway_le (hone : ∀ i ∈ b, 1 ≤ i.width) :
    leeway targets b ≤ 3 * targets.countP Option.isSome := by
  induction targets generalizing b with
  | nil => simp [leeway]
  | cons target targets ih =>
    cases b with
    | nil => simp [leeway]
    | cons i b =>
      have htail := ih fun j hj => hone j (List.mem_cons_of_mem _ hj)
      have hi := hone i (List.mem_cons_self ..)
      cases target with
      | none => simpa [leeway] using htail
      | some t =>
        simp only [leeway, maximalWidth, List.countP_cons, Option.isSome_some, if_true]
        omega

/-- Only jumps to labels are widened, and no further than an operand can need. -/
def Grows (target : Option LabelTarget) (i i' : Instruction) : Prop :=
  i'.width = i.width ∨
    target.isSome = true ∧ i.width < i'.width ∧ i'.width ≤ maximalWidth

/-- What has been widened has less leeway. -/
theorem leeway_of_grows (hlength : targets.length = b.length) (hlength' : b.length = w.length)
    (h : ∀ (l : Nat) (target : Option LabelTarget) (i i' : Instruction), targets[l]? = some target →
      b[l]? = some i → w[l]? = some i' → Grows target i i') :
    leeway targets w ≤ leeway targets b ∧
      (w.map Instruction.width ≠ b.map Instruction.width → leeway targets w < leeway targets b) := by
  induction targets generalizing b w with
  | nil =>
    obtain rfl := List.length_eq_zero_iff.1 hlength.symm
    obtain rfl := List.length_eq_zero_iff.1 hlength'.symm
    exact ⟨le_rfl, fun hne => absurd rfl hne⟩
  | cons target targets ih =>
    obtain ⟨i, b, rfl⟩ := List.exists_cons_of_length_eq_add_one hlength.symm
    obtain ⟨i', w, rfl⟩ := List.exists_cons_of_length_eq_add_one hlength'.symm
    obtain ⟨hle, hlt⟩ := ih (by simpa using hlength) (by simpa using hlength') fun l =>
      h (l + 1)
    have hhead := h 0 target i i' rfl rfl rfl
    simp only [List.map_cons, ne_eq, List.cons.injEq, not_and_or] at hlt ⊢
    cases target with
    | none =>
      rcases hhead with hsame | ⟨hsome, -⟩
      · simp only [leeway]
        exact ⟨hle, fun hne => hlt (hne.resolve_left fun hne => hne hsame)⟩
      · cases hsome
    | some t =>
      simp only [leeway]
      rcases hhead with hsame | ⟨-, hgrown, hmax⟩
      · rw [hsame]
        refine ⟨by omega, fun hne => ?_⟩
        have := hlt (hne.resolve_left fun hne => hne rfl)
        omega
      · omega

theorem grows_of_pass (hlab : Labelled targets b) (h : pass targets b = .ok w) (l : Nat)
    (target : Option LabelTarget) (i i' : Instruction) (ht : targets[l]? = some target)
    (hi : b[l]? = some i) (hi' : w[l]? = some i') : Grows target i i' := by
  cases target with
  | none =>
    rw [pass_none hlab h ht, hi] at hi'
    cases hi'
    exact .inl rfl
  | some t =>
    obtain ⟨x, -, hget⟩ := pass_some hlab h ht hi
    rw [hi'] at hget
    cases hget
    have hmax := minimalWidth_le_four (UInt32.ofNat x)
    rcases Nat.le_total (minimalWidth (UInt32.ofNat x)) i.width with hle | hge
    · exact .inl (max_eq_left hle)
    · rcases Nat.eq_or_lt_of_le hge with heq | hlt
      · exact .inl (max_eq_left heq.ge)
      · have hwidth : max i.width (minimalWidth (UInt32.ofNat x)) = minimalWidth (UInt32.ofNat x) :=
          max_eq_right hge
        exact .inr ⟨rfl, hlt.trans_eq hwidth.symm, hwidth.trans_le hmax⟩

/-- The passes end. Each but the last uses up leeway. -/
theorem exists_stops (hlab : Labelled targets b) :
    ∃ n out, Stops targets b n out ∧ n ≤ leeway targets b + 1 := by
  induction hroom : leeway targets b using Nat.strong_induction_on generalizing b with
  | _ room ih =>
    cases h : pass targets b with
    | error fault => exact ⟨1, _, .failed h, Nat.le_add_left ..⟩
    | ok next =>
      have hwidened := widened_of_pass hlab h
      by_cases hsame : next.map Instruction.width = b.map Instruction.width
      · exact ⟨1, _, .settled h hsame, Nat.le_add_left ..⟩
      · have hless : leeway targets next < room := by
          rw [← hroom]
          exact (leeway_of_grows hlab.length_eq hwidened.length_eq (grows_of_pass hlab h)).2 hsame
        obtain ⟨n, out, hstops, hn⟩ := ih _ hless (hlab.widened hwidened) rfl
        exact ⟨n + 1, out, .again h hsame hstops, by omega⟩

/-! ### Labels that can be resolved -/

/-- Relative jumps lead to later items. -/
def Forward (targets : List (Option LabelTarget)) (b : Block) : Prop :=
  ∀ (l : Nat) (t : LabelTarget) (i : Instruction), targets[l]? = some (some t) → b[l]? = some i →
    i.flow = .relativeJump → l < t.index

theorem Forward.widened (hf : Forward targets b) (h : Widened b w) : Forward targets w := by
  intro l t i' ht hi' hflow
  obtain ⟨i, hi, hopcode, -⟩ := exists_getElem?_left h hi'
  exact hf l t i ht hi ((congrArg Opcode.flow hopcode).symm.trans hflow)

/-- A pass succeeds when all relative jumps lead forward. -/
theorem exists_pass (hlab : Labelled targets b) (hf : Forward targets b) :
    ∃ w, pass targets b = .ok w := by
  refine exists_mapM_eq_ok_iff.2 fun ⟨⟨i, offset⟩, target⟩ hmem => ?_
  obtain ⟨l, hl⟩ := List.mem_iff_getElem?.1 hmem
  obtain ⟨hplaced, ht⟩ := List.getElem?_zip_eq_some.1 hl
  rw [getElem?_placed, Option.map_eq_some_iff] at hplaced
  obtain ⟨j, hi, heq⟩ := hplaced
  cases heq
  cases target with
  | none => exact ⟨i, rfl⟩
  | some t =>
    have hbase : base b i.flow l ≤ start b t.index := by
      unfold base
      split
      · rename_i hflow
        exact start_mono b (hf l t i ht hi hflow)
      · exact Nat.zero_le _
    exact ⟨_, (place_some hi (hlab.isJump l t i ht hi) (hlab.index_lt l t ht)).2
      ⟨_, Nat.add_sub_cancel' hbase, rfl⟩⟩

theorem forward_of_pass (hlab : Labelled targets b) (hb : b.Solid) (h : pass targets b = .ok w) :
    Forward targets b := by
  intro l t i ht hi hflow
  obtain ⟨x, haims, -⟩ := pass_some hlab h ht hi
  have hl := (List.getElem?_eq_some_iff.1 hi).1
  rw [Aims, base, if_pos hflow] at haims
  exact (start_le_start_iff hb (Nat.succ_le_of_lt hl)).1 (haims ▸ Nat.le_add_right _ _)

theorem forward_of_stops {n : Nat} (hlab : Labelled targets b) (hb : b.Solid)
    (h : Stops targets b n (.ok w)) : Forward targets b := by
  cases h with
  | settled h _ => exact forward_of_pass hlab hb h
  | again h _ _ => exact forward_of_pass hlab hb h

theorem exists_of_stops {n : Nat} {out : Except AssemblyFault Block} (hlab : Labelled targets b)
    (hf : Forward targets b) (h : Stops targets b n out) : ∃ w, out = .ok w := by
  induction h with
  | failed h =>
    obtain ⟨w, hw⟩ := exists_pass hlab hf
    rw [h] at hw
    cases hw
  | settled h _ => exact ⟨_, rfl⟩
  | again h _ _ ih =>
    have hwidened := widened_of_pass hlab h
    exact ih (hlab.widened hwidened) (hf.widened hwidened)

/-- Labels are the operands of jumps and mark items, later ones where the jump is relative. -/
def Resolves (labels : Labels) (items : List Item) : Prop :=
  ∀ (l : Nat) (item : Item) (name : String), items[l]? = some item → item.operand = .label name →
    item.opcode.flow.isJump = true ∧ ∃ m, labels.find? name = some m ∧ m < items.length ∧
      (item.opcode.flow = .relativeJump → l < m)

/-! ### Widths that fit -/

/-- The offset of the item with a given index, the items having the widths `widths`. -/
def offsetIn (widths : List Nat) (k : Nat) : Nat := (widths.take k).sum * wordSize

/-- The operand of the item with index `l` where the items have these widths is `x`: the value that it
is given, or what leads to the item that its label marks. -/
def Demands (labels : Labels) (widths : List Nat) (l : Nat) (item : Item) (x : Nat) : Prop :=
  match item.operand with
  | .value operand => x = operand.toNat
  | .label name => ∃ m, labels.find? name = some m ∧
    (if item.opcode.flow = .relativeJump then offsetIn widths (l + 1) else 0) + x =
      offsetIn widths m

/-- The operand of every item, in the layout that the widths give, fits its width, one byte to a
word. -/
structure Fits (labels : Labels) (items : List Item) (widths : List Nat) : Prop where
  length_eq : widths.length = items.length
  fits : ∀ (l : Nat) (item : Item) (width : Nat), items[l]? = some item → widths[l]? = some width →
    1 ≤ width ∧ ∃ x, Demands labels widths l item x ∧ x < 256 ^ width

theorem size_eq_sum (b : Block) : size b = (b.map Instruction.width).sum * wordSize := by
  induction b with
  | nil => rfl
  | cons i b ih => rw [size_cons, ih, List.map_cons, List.sum_cons, Nat.add_mul, Instruction.size]

theorem offsetIn_map (b : Block) (k : Nat) : offsetIn (b.map Instruction.width) k = start b k := by
  rw [offsetIn, start, size_eq_sum, List.map_take]

/-- Idle instructions of given widths. -/
def idle (widths : List Nat) : Block := widths.map fun width => ⟨.nop, 0, width⟩

theorem start_idle (widths : List Nat) (k : Nat) : start (idle widths) k = offsetIn widths k := by
  rw [← offsetIn_map, idle, List.map_map]
  exact congrArg (offsetIn · k) (List.map_id' widths)

theorem minimalWidth_le_of_lt_pow {x width : Nat} (hone : 1 ≤ width) (h : x < 256 ^ width) :
    minimalWidth (UInt32.ofNat x) ≤ width := by
  rcases Nat.lt_or_ge 3 width with hwide | hnarrow
  · exact (minimalWidth_le_four _).trans hwide
  · have hsmall : x < 256 ^ 3 := h.trans_le (Nat.pow_le_pow_right (by decide) hnarrow)
    have hnat : (UInt32.ofNat x).toNat = x :=
      UInt32.toNat_ofNat_of_lt' (hsmall.trans (by decide))
    exact minimalWidth_le_of_lt (hnat.symm ▸ h) hone (by omega)

theorem toNat_lt_pow_minimalWidth (operand : UInt32) : operand.toNat < 256 ^ minimalWidth operand := by
  have hfits := (minimalWidth_le_iff (one_le_minimalWidth operand) (minimalWidth_le_four operand)).1
    le_rfl
  rw [Nat.shiftRight_eq_div_pow, Nat.pow_mul] at hfits
  exact (Nat.div_eq_zero_iff.1 hfits).resolve_left (by positivity)

/-- No instruction is wider than the widths allow. -/
def Below (b : Block) (widths : List Nat) : Prop :=
  List.Forall₂ (fun i width => i.width ≤ width) b widths

/-- The widths suit the operands with which the jumps to labels reach their targets. -/
def Suits (targets : List (Option LabelTarget)) (b : Block) (widths : List Nat) : Prop :=
  ∀ (l : Nat) (t : LabelTarget) (i : Instruction) (width : Nat), targets[l]? = some (some t) →
    b[l]? = some i → widths[l]? = some width →
      1 ≤ width ∧ ∃ x, Aims (idle widths) l t.index x i ∧ x < 256 ^ width

variable {widths : List Nat}

theorem Below.within (h : Below b widths) : Within (idle widths) b :=
  List.forall₂_map_left_iff.2 h.flip

theorem Suits.widened (hs : Suits targets b widths) (h : Widened b w) : Suits targets w widths := by
  intro l t i' width ht hi' hwidth
  obtain ⟨i, hi, hopcode, -⟩ := exists_getElem?_left h hi'
  have hflow : i'.flow = i.flow := congrArg Opcode.flow hopcode
  unfold Aims
  rw [hflow]
  exact hs l t i width ht hi hwidth

/-- A pass does not widen a jump further than any widths that suit. -/
theorem Below.pass (hlab : Labelled targets b) (hs : Suits targets b widths) (hb : Below b widths)
    (h : Layout.pass targets b = .ok w) : Below w widths := by
  have hwidened := widened_of_pass hlab h
  refine forall₂_of_getElem? (hwidened.length_eq.symm.trans hb.length_eq) fun l i' width hi' hwidth => ?_
  obtain ⟨i, hi, -⟩ := exists_getElem?_left hwidened hi'
  obtain ⟨width', hwidth', hle⟩ := exists_getElem?_right hb hi
  rw [hwidth] at hwidth'
  cases hwidth'
  obtain ⟨target, ht⟩ : ∃ target, targets[l]? = some target :=
    ⟨_, List.getElem?_eq_getElem (hlab.length_eq ▸ (List.getElem?_eq_some_iff.1 hi).1)⟩
  cases target with
  | none =>
    rw [pass_none hlab h ht, hi] at hi'
    cases hi'
    exact hle
  | some t =>
    obtain ⟨x, hx, hget⟩ := pass_some hlab h ht hi
    rw [hi'] at hget
    cases hget
    obtain ⟨hone, y, hy, hfits⟩ := hs l t i width ht hi hwidth
    have hxy : x ≤ y := le_of_aims hb.within rfl hx hy
    exact max_le hle (minimalWidth_le_of_lt_pow hone (hxy.trans_lt hfits))

theorem Below.of_stops {n : Nat} {out : Except AssemblyFault Block} (hlab : Labelled targets b)
    (hs : Suits targets b widths) (hb : Below b widths) (h : Stops targets b n out) :
    ∀ w, out = .ok w → Below w widths := by
  induction h with
  | failed h =>
    rintro w ⟨⟩
  | settled h _ =>
    rintro w ⟨⟩
    exact hb.pass hlab hs h
  | again h _ _ ih =>
    have hwidened := widened_of_pass hlab h
    exact ih (hlab.widened hwidened) (hs.widened hwidened) (hb.pass hlab hs h)

end Layout

section Items

variable {labels : Labels} {items : List Item} {targets : List (Option LabelTarget)} {w : Block}

theorem Item.exists_target_iff {count : Nat} {item : Item} :
    (∃ target, item.target labels count = .ok target) ↔ ∀ name, item.operand = .label name →
      item.opcode.flow.isJump = true ∧ ∃ m, labels.find? name = some m ∧ m < count := by
  constructor
  · rintro ⟨target, h⟩ name hname
    obtain ⟨hjump, m, -, hfind, hlt⟩ := Item.target_of_label hname h
    exact ⟨hjump, m, hfind, hlt⟩
  · intro h
    unfold Item.target
    cases hoperand : item.operand with
    | value operand => exact ⟨none, rfl⟩
    | label name =>
      obtain ⟨hjump, m, hfind, hlt⟩ := h name hoperand
      exact ⟨some ⟨m, name⟩, by simp only [hjump, hfind, hlt, if_true]⟩

theorem countP_of_targets {count : Nat}
    (h : List.Forall₂ (fun item target => item.target labels count = .ok target) items targets) :
    targets.countP Option.isSome = items.countP fun item => item.label?.isSome := by
  induction h with
  | nil => rfl
  | @cons item target items targets hok _ ih =>
    have hsome : target.isSome = item.label?.isSome := by
      cases target with
      | none =>
        obtain ⟨operand, hvalue⟩ := Item.target_eq_none hok
        simp [Item.label?, hvalue]
      | some t => simp [Item.label?, (Item.target_eq_some hok).1]
    rw [List.countP_cons, List.countP_cons, ih, hsome]

theorem one_le_width_draft (item : Item) : 1 ≤ item.draft.width := by
  rw [item.width_draft]
  exact one_le_minimalWidth _

theorem solid_drafts : Block.Solid (items.map Item.draft) := by
  intro i hi
  obtain ⟨item, -, rfl⟩ := List.mem_map.1 hi
  exact Nat.mul_pos (one_le_width_draft item) (by decide)

/-- The layout is what the passes end in, and there are no more of them than three for each label and
the last one. -/
theorem exists_stops_of_targetsOf (h : targetsOf labels items = .ok targets) :
    ∃ n ≤ 3 * items.countP (fun item => item.label?.isSome) + 1,
      Layout.Stops targets (items.map Item.draft) n (layout labels items) := by
  obtain ⟨n, out, hstops, hn⟩ := Layout.exists_stops (labelled_of_targetsOf h)
  have hone : ∀ i ∈ items.map Item.draft, 1 ≤ i.width := by
    intro i hi
    obtain ⟨item, -, rfl⟩ := List.mem_map.1 hi
    exact one_le_width_draft item
  have hlimit : n ≤ Layout.passLimit targets :=
    hn.trans (Nat.succ_le_succ (Layout.leeway_le hone))
  have hlayout : layout labels items = out := by
    rw [layout, h]
    exact Layout.settle_of_stops hstops hlimit
  rw [hlayout]
  refine ⟨n, ?_, hstops⟩
  rw [← countP_of_targets (mapM_eq_ok_iff.1 h)]
  exact hlimit

theorem resolves_of_layout (h : layout labels items = .ok w) : Layout.Resolves labels items := by
  intro l item name hitem hname
  obtain ⟨targets, htargets, -⟩ := bind_eq_ok_iff.1 h
  obtain ⟨n, -, hstops⟩ := exists_stops_of_targetsOf htargets
  obtain ⟨target, ht, hok⟩ := exists_getElem?_right (mapM_eq_ok_iff.1 htargets) hitem
  obtain ⟨hjump, m, rfl, hfind, hlt⟩ := Item.target_of_label hname hok
  rw [h] at hstops
  have hforward := Layout.forward_of_stops (labelled_of_targetsOf htargets) solid_drafts hstops
  have hdraft : (items.map Item.draft)[l]? = some item.draft := by
    rw [List.getElem?_map, hitem]
    rfl
  exact ⟨hjump, m, hfind, hlt, fun hflow =>
    hforward l _ item.draft ht hdraft (item.flow_draft.trans hflow)⟩

theorem exists_targetsOf (h : Layout.Resolves labels items) :
    ∃ targets, targetsOf labels items = .ok targets := by
  refine exists_mapM_eq_ok_iff.2 fun item hitem => Item.exists_target_iff.2 fun name hname => ?_
  obtain ⟨l, hl⟩ := List.mem_iff_getElem?.1 hitem
  obtain ⟨hjump, m, hfind, hlt, -⟩ := h l item name hl hname
  exact ⟨hjump, m, hfind, hlt⟩

theorem forward_of_resolves (h : Layout.Resolves labels items)
    (htargets : targetsOf labels items = .ok targets) :
    Layout.Forward targets (items.map Item.draft) := by
  intro l t i ht hi hflow
  obtain ⟨item, hitem, rfl, hok⟩ := exists_item_of_target htargets ht hi
  obtain ⟨hlabel, -, hfind, -⟩ := Item.target_eq_some hok
  obtain ⟨-, m, hfind', -, hbehind⟩ := h l item t.label hitem hlabel
  rw [hfind] at hfind'
  cases hfind'
  exact hbehind (item.flow_draft.symm.trans hflow)

/-- Items have a layout exactly when their labels can be resolved. -/
theorem exists_layout_iff : (∃ w, layout labels items = .ok w) ↔ Layout.Resolves labels items := by
  constructor
  · rintro ⟨w, h⟩
    exact resolves_of_layout h
  · intro h
    obtain ⟨targets, htargets⟩ := exists_targetsOf h
    obtain ⟨n, -, hstops⟩ := exists_stops_of_targetsOf htargets
    exact Layout.exists_of_stops (labelled_of_targetsOf htargets) (forward_of_resolves h htargets)
      hstops

theorem suits_of_fits {widths : List Nat} (htargets : targetsOf labels items = .ok targets)
    (h : Layout.Fits labels items widths) : Layout.Suits targets (items.map Item.draft) widths := by
  intro l t i width ht hi hwidth
  obtain ⟨item, hitem, rfl, hok⟩ := exists_item_of_target htargets ht hi
  obtain ⟨hlabel, -, hfind, -⟩ := Item.target_eq_some hok
  obtain ⟨hone, x, hx, hlt⟩ := h.fits l item width hitem hwidth
  simp only [Layout.Demands, hlabel, hfind, Option.some.injEq, exists_eq_left'] at hx
  refine ⟨hone, x, ?_, hlt⟩
  rw [Layout.Aims, Block.base, Layout.start_idle, Layout.start_idle, item.flow_draft]
  exact hx

theorem below_of_fits {widths : List Nat} (h : Layout.Fits labels items widths) :
    Layout.Below (items.map Item.draft) widths := by
  refine forall₂_of_getElem? (by rw [List.length_map, h.length_eq]) fun l i width hi hwidth => ?_
  rw [List.getElem?_map, Option.map_eq_some_iff] at hi
  obtain ⟨item, hitem, rfl⟩ := hi
  obtain ⟨hone, x, hx, hlt⟩ := h.fits l item width hitem hwidth
  cases hoperand : item.operand with
  | value operand =>
    simp only [Layout.Demands, hoperand] at hx
    subst hx
    have hfits := Layout.minimalWidth_le_of_lt_pow hone hlt
    rw [UInt32.ofNat_toNat] at hfits
    simpa [Item.draft, hoperand, Instruction.narrow] using hfits
  | label name =>
    have hzero : minimalWidth 0 = 1 := rfl
    simpa [Item.draft, hoperand, Instruction.bare, Instruction.narrow, hzero] using hone

/-- The widths of a layout suit its operands. -/
theorem Layout.Realizes.fits (h : Layout.Realizes labels items w) :
    Layout.Fits labels items (w.map Instruction.width) := by
  refine ⟨by rw [List.length_map, h.opcodes.length_eq], fun l item width hitem hwidth => ?_⟩
  rw [List.getElem?_map, Option.map_eq_some_iff] at hwidth
  obtain ⟨i, hi, rfl⟩ := hwidth
  rw [h.narrow i (List.mem_of_getElem? hi)]
  refine ⟨one_le_minimalWidth _, i.operand.toNat, ?_, Layout.toNat_lt_pow_minimalWidth _⟩
  unfold Layout.Demands
  cases hoperand : item.operand with
  | value operand => exact congrArg UInt32.toNat (h.operand_eq l item i operand hitem hi hoperand)
  | label name =>
    obtain ⟨m, hfind, -, htarget⟩ := h.target_eq l item i name hitem hi hoperand
    have hjump := Block.isJump_of_target? htarget
    have haims := ((Block.target?_eq_some_iff hi hjump).1 htarget).1
    obtain ⟨i', hi', hopcode⟩ := exists_getElem?_right h.opcodes hitem
    rw [hi] at hi'
    cases hi'
    have hflow : i.flow = item.opcode.flow := congrArg Opcode.flow hopcode
    refine ⟨m, hfind, ?_⟩
    rw [Layout.offsetIn_map, Layout.offsetIn_map, ← hflow]
    exact haims

/-- No widths that fit are less than those of the layout. -/
theorem le_of_fits {widths : List Nat} (h : layout labels items = .ok w)
    (hfits : Layout.Fits labels items widths) :
    List.Forall₂ (· ≤ ·) (w.map Instruction.width) widths := by
  obtain ⟨targets, htargets, -⟩ := bind_eq_ok_iff.1 h
  obtain ⟨n, -, hstops⟩ := exists_stops_of_targetsOf htargets
  have hbelow := (below_of_fits hfits).of_stops (labelled_of_targetsOf htargets)
    (suits_of_fits htargets hfits) hstops w h
  exact List.forall₂_map_left_iff.2 hbelow

end Items

namespace Builder

/-- The passes of the layout end, three of them at most for each label and one more. A function is
built exactly when the labels can be resolved. Its code is that of the items, every jump to a label
reaches the item that the label marks, and no widths that suit the operands are less than its own. -/
theorem finish_spec (b : Builder) (hpadding : ∀ item ∈ b.items.toList, item.opcode ≠ .extendedArg) :
    (∀ targets, targetsOf b.labels b.items.toList = .ok targets →
      ∃ n ≤ 3 * b.items.toList.countP (fun item => item.label?.isSome) + 1,
        Layout.Stops targets (b.items.toList.map Item.draft) n
          (layout b.labels b.items.toList)) ∧
    ((∃ f, b.finish = .ok f) ↔ Layout.Resolves b.labels b.items.toList) ∧
    ∀ f, b.finish = .ok f → f.code.length < limit32 → ∃ c, Block.decode f.code = .ok c ∧
      Layout.Realizes b.labels b.items.toList c ∧
      Layout.Fits b.labels b.items.toList (c.map Instruction.width) ∧
      ∀ widths, Layout.Fits b.labels b.items.toList widths →
        List.Forall₂ (· ≤ ·) (c.map Instruction.width) widths := by
  refine ⟨fun targets htargets => exists_stops_of_targetsOf htargets, ?_, fun f hf hsize => ?_⟩
  · rw [← exists_layout_iff]
    constructor
    · rintro ⟨f, hf⟩
      obtain ⟨c, hlayout, -⟩ := finish_eq_ok_iff.1 hf
      exact ⟨c, hlayout⟩
    · rintro ⟨c, hlayout⟩
      exact ⟨_, finish_eq_ok_iff.2 ⟨c, hlayout, rfl⟩⟩
  · obtain ⟨c, hlayout, rfl⟩ := finish_eq_ok_iff.1 hf
    have hrealizes := realizes_of_layout hlayout ((Block.size_le_length_encode c).trans_lt hsize)
    exact ⟨c, Block.decode_encode (hrealizes.encodable hpadding), hrealizes, hrealizes.fits,
      fun widths hfits => le_of_fits hlayout hfits⟩

/-- A jump over 127 items, one too many for an operand of one byte because the jump takes up bytes
itself. -/
def farJump : Builder where
  __ := start "far"
  items := #[⟨.jumpAbsolute, .label "end", none⟩] ++ Array.replicate 127 ⟨.nop, .value 0, none⟩ ++
    #[⟨.returnValue, .value 0, none⟩]
  labels := [("end", 128)]

theorem exists_finish_farJump : (∀ item ∈ farJump.items.toList, item.opcode ≠ .extendedArg) ∧
    ∃ f, farJump.finish = .ok f ∧ f.code.length = 260 ∧ ∃ c, Block.decode f.code = .ok c ∧
      Layout.Realizes farJump.labels farJump.items.toList c ∧
      ∀ widths, Layout.Fits farJump.labels farJump.items.toList widths →
        List.Forall₂ (· ≤ ·) (c.map Instruction.width) widths := by
  have hpadding : ∀ item ∈ farJump.items.toList, item.opcode ≠ .extendedArg := by decide +kernel
  have hlength : farJump.finish.map (fun f => f.code.length) = .ok 260 := by decide +kernel
  cases hfinish : farJump.finish with
  | error fault =>
    rw [hfinish] at hlength
    cases hlength
  | ok f =>
    rw [hfinish] at hlength
    have hcode : f.code.length = 260 := Except.ok.inj hlength
    obtain ⟨c, hdecode, hrealizes, -, hleast⟩ :=
      (finish_spec farJump hpadding).2.2 f hfinish (hcode.trans_lt (by decide))
    exact ⟨hpadding, f, rfl, hcode, c, hdecode, hrealizes, hleast⟩

end Builder

end Tripwire
