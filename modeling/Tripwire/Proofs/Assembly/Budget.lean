import Tripwire.Proofs.Assembly.Least
import Tripwire.Proofs.Assembly.Source
import Tripwire.Proofs.Block.Path

/-!
# The stack budget of assembled functions

Unless its source text sets it, the stack budget of a function is the highest level of
the listing. The level is the depth to which the instructions bring the operand stack
one after the other, as if none of them jumped and nothing could be taken from an empty
stack. A path is deeper than that only where a jump arrives at its target above the
level there, and the budget is exceeded by no more than all these jumps together.

* `Block.level`: the level in front of an offset, with `Block.level_le`;
* `Block.overshoot`, `Block.Climbs`: how far jumps arrive above the level, and paths with the sum
  of it;
* `Block.le_level_of_climbs`: the depth along a path, by what each step keeps;
* `layout_bounded`: what the code of any layout is read back as;
* `SetsBudget`: the lines that set the budget, with `stackDepth_of_runLines`;
* `depth_le_of_assemble`: the budget of a source text against the depth along every path.
-/

namespace Tripwire

namespace Block

variable {b : Block} {i : Instruction} {k p t : Nat} {depth above : Int}

/-! ### The level of the listing -/

/-- The level behind one instruction more. -/
def advance (level : Int) (i : Instruction) : Int := max 0 (level + i.stackEffect false)

/-- The level in front of an offset: that of the instructions before the first one that starts there
or behind it. -/
def level (b : Block) (p : Nat) : Int :=
  (b.take (b.offsets.findIdx fun q => p ≤ q)).foldl advance 0

theorem findIdx_offsetsFrom (hb : b.Solid) (s : Nat) (hk : k ≤ b.length) :
    (b.offsetsFrom s).findIdx (fun q => s + start b k ≤ q) = k := by
  induction b generalizing s k with
  | nil =>
    obtain rfl : k = 0 := Nat.le_zero.1 hk
    rfl
  | cons i b ih =>
    rw [offsetsFrom_cons, List.findIdx_cons]
    cases k with
    | zero => simp
    | succ k =>
      have hpos : 0 < i.size := hb i (List.mem_cons_self ..)
      have hbehind : ¬ s + i.size + start b k ≤ s := by omega
      have htail := ih (fun j hj => hb j (List.mem_cons_of_mem _ hj)) (s + i.size)
        (Nat.le_of_succ_le_succ hk)
      simp [← Nat.add_assoc, hbehind, htail]

theorem level_start (hb : b.Solid) (hk : k ≤ b.length) :
    b.level (start b k) = (b.take k).foldl advance 0 := by
  have hindex := findIdx_offsetsFrom hb 0 hk
  rw [Nat.zero_add] at hindex
  rw [level, offsets, hindex]

/-- The level changes from one instruction to the one behind it as their effects say. -/
theorem level_succ (hb : b.Solid) (hi : b[k]? = some i) :
    b.level (start b k + i.size) = advance (b.level (start b k)) i := by
  obtain ⟨hk, -⟩ := List.getElem?_eq_some_iff.1 hi
  rw [← start_succ hi, level_start hb hk, level_start hb hk.le, List.take_add_one, hi,
    List.foldl_append]
  rfl

theorem straightLineDepth_eq (b : Block) :
    straightLineDepth b = (b.foldl (track advance) (0, 0)).2.toNat := rfl

/-- The budget is nowhere below the level. -/
theorem level_le (b : Block) (p : Nat) : b.level p ≤ straightLineDepth b := by
  rw [straightLineDepth_eq]
  exact (foldl_take_le_foldl_track advance b (s := (0, 0)) le_rfl _).trans (Int.self_le_toNat _)

/-! ### Paths above the level -/

/-- How far a jump at `p` arrives above the level at its target, when it starts from the level. -/
def overshoot (b : Block) (i : Instruction) (p t : Nat) : Int :=
  max 0 (b.level p + i.stackEffect true - b.level t)

/-- A path from the start of the code leads to an offset and raises the operand stack by a depth,
and the jumps that it takes arrive above the level by `above` in all. -/
inductive Climbs (b : Block) : Nat → Int → Int → Prop
  | start : Climbs b 0 0 0
  | fall {i : Instruction} {p : Nat} {depth above : Int} : Climbs b p depth above →
      (i, p) ∈ placed b → i.opcode.Falls →
      Climbs b (p + i.size) (depth + i.stackEffect false) above
  | jump {i : Instruction} {p t : Nat} {depth above : Int} : Climbs b p depth above →
      (i, p) ∈ placed b → i.target? p = some t →
      Climbs b t (depth + i.stackEffect true) (above + b.overshoot i p t)

/-- These are all the paths. -/
theorem reaches_iff_exists_climbs : b.Reaches p depth ↔ ∃ above, b.Climbs p depth above := by
  constructor
  · intro h
    induction h with
    | start => exact ⟨0, .start⟩
    | step _ he ih =>
      obtain ⟨above, hclimbs⟩ := ih
      cases he with
      | fall hmem hfalls => exact ⟨_, hclimbs.fall hmem hfalls⟩
      | jump hmem htarget => exact ⟨_, hclimbs.jump hmem htarget⟩
  · rintro ⟨above, h⟩
    induction h with
    | start => exact .start
    | fall _ hmem hfalls ih => exact ih.step (.fall hmem hfalls)
    | jump _ hmem htarget ih => exact ih.step (.jump hmem htarget)

/-- A path is deeper than the listing by no more than its jumps arrive above it. -/
theorem le_level_of_climbs (hb : b.Solid) (h : b.Climbs p depth above) :
    depth ≤ b.level p + above := by
  induction h with
  | start => exact (level_start hb (Nat.zero_le b.length)).ge.trans_eq (Int.add_zero _).symm
  | @fall i p depth above _ hmem _ ih =>
    obtain ⟨k, hi, rfl⟩ := mem_placed.1 hmem
    have hnext : b.level (start b k) + i.stackEffect false ≤ b.level (start b k + i.size) := by
      rw [level_succ hb hi]
      exact le_max_right _ _
    omega
  | @jump i p t depth above _ _ _ ih =>
    have harrival : b.level p + i.stackEffect true - b.level t ≤ b.overshoot i p t :=
      le_max_right _ _
    omega

/-- No jump arrives above the level at its target. -/
def Grounded (b : Block) : Prop :=
  ∀ q ∈ b.placed, ∀ t ∈ q.1.target? q.2, b.level q.2 + q.1.stackEffect true ≤ b.level t

instance (b : Block) : Decidable b.Grounded :=
  inferInstanceAs (Decidable (∀ q ∈ b.placed, ∀ t ∈ q.1.target? q.2, _ ≤ _))

theorem Grounded.eq_zero_of_climbs (hb : b.Grounded) (h : b.Climbs p depth above) : above = 0 := by
  induction h with
  | start => rfl
  | fall _ _ _ ih => exact ih
  | @jump i p t _ _ _ hmem htarget ih =>
    rw [ih, Int.zero_add]
    exact max_eq_left (Int.sub_nonpos_of_le (hb (i, p) hmem t htarget))

end Block

/-! ### The code of a layout -/

namespace Layout

variable {targets : List (Option LabelTarget)} {b w : Block}

/-- No pass makes an instruction wider than an operand can need. -/
theorem width_le_of_pass (hlab : Labelled targets b) (h : pass targets b = .ok w)
    (hb : ∀ i ∈ b, i.width ≤ maximalWidth) : ∀ i ∈ w, i.width ≤ maximalWidth := by
  intro i' hi'
  obtain ⟨l, hl⟩ := List.mem_iff_getElem?.1 hi'
  obtain ⟨i, hi, -⟩ := exists_getElem?_left (widened_of_pass hlab h) hl
  obtain ⟨target, -, htarget, -⟩ := exists_place_of_pass hlab h hi
  rcases grows_of_pass hlab h l target i i' htarget hi hl with hsame | ⟨-, -, hmax⟩
  · exact hsame.trans_le (hb i (List.mem_of_getElem? hi))
  · exact hmax

theorem width_le_of_settle {passes : Nat} (hlab : Labelled targets b)
    (h : settle targets passes b = .ok w) (hb : ∀ i ∈ b, i.width ≤ maximalWidth) :
    ∀ i ∈ w, i.width ≤ maximalWidth := by
  induction passes generalizing b with
  | zero => cases h
  | succ passes ih =>
    obtain ⟨next, hnext, hrest⟩ := bind_eq_ok_iff.1 h
    have hwidth := width_le_of_pass hlab hnext hb
    split at hrest
    · rw [pure_eq_ok_iff] at hrest
      rwa [← hrest]
    · exact ih (hlab.widened (widened_of_pass hlab hnext)) hrest hwidth

end Layout

/-- Instructions of a layout are not too wide for code, and only written padding is padding. -/
theorem layout_bounded {labels : Labels} {items : List Item} {c : Block}
    (hpadding : ∀ item ∈ items, item.opcode ≠ .extendedArg) (h : layout labels items = .ok c) :
    ∀ i ∈ c, i.opcode ≠ .extendedArg ∧ i.width ≤ maximalWidth := by
  obtain ⟨targets, htargets, hsettle⟩ := bind_eq_ok_iff.1 h
  have hlab := labelled_of_targetsOf htargets
  have hdraft : ∀ i ∈ items.map Item.draft, i.width ≤ maximalWidth := by
    intro i hi
    obtain ⟨item, -, rfl⟩ := List.mem_map.1 hi
    exact item.width_draft.trans_le (minimalWidth_le_four _)
  intro i hi
  refine ⟨?_, Layout.width_le_of_settle hlab hsettle hdraft i hi⟩
  obtain ⟨i₀, hi₀, hopcode, -⟩ := exists_of_mem_right (Layout.widened_of_settle hlab hsettle) hi
  obtain ⟨item, hitem, rfl⟩ := List.mem_map.1 hi₀
  rw [hopcode, item.opcode_draft]
  exact hpadding item hitem

/-- The budget does not depend on the widths. -/
theorem straightLineDepth_map_raised (b : Block) :
    straightLineDepth (b.map Instruction.raised) = straightLineDepth b := by
  rw [straightLineDepth, List.foldl_map]
  rfl

/-! ### Source text that leaves the budget open -/

/-- The line sets the stack budget. -/
def SetsBudget (line : List Char) : Prop :=
  match readStatement (Text.trim (stripComment .outside line)) with
  | .ok (some (.stack _, _)) => True
  | _ => False

instance : DecidablePred SetsBudget := fun line => by
  unfold SetsBudget
  split <;> infer_instance

@[simp] theorem Builder.stackDepth_addConstant (b : Builder) (value : Constant) :
    (b.addConstant value).1.stackDepth = b.stackDepth := by
  unfold Builder.addConstant
  split <;> rfl

@[simp] theorem Builder.stackDepth_addName (b : Builder) (name : String) :
    (b.addName name).1.stackDepth = b.stackDepth := by
  unfold Builder.addName
  split <;> rfl

namespace Assembler

variable {a a' : Assembler}

theorem stackDepth_of_define {name : String} {text : List Char} (h : a.define name text = .ok a') :
    a'.builder.stackDepth = a.builder.stackDepth := by
  unfold define at h
  split at h
  · cases h
  · split at h
    · cases h
    · obtain ⟨value, -, h⟩ := bind_eq_ok_iff.1 h
      cases h
      exact a.builder.stackDepth_addConstant value

theorem stackDepth_of_load {op : Opcode} {text : List Char} (h : a.load op text = .ok a') :
    a'.builder.stackDepth = a.builder.stackDepth := by
  unfold load at h
  split at h
  · cases h
    rfl
  · obtain ⟨value, -, h⟩ := bind_eq_ok_iff.1 h
    cases h
    exact a.builder.stackDepth_addConstant value

/-- Only one statement sets the budget. -/
theorem stackDepth_of_run {statement : Statement} (hs : ∀ depth, statement ≠ .stack depth)
    (h : a.run statement = .ok a') : a'.builder.stackDepth = a.builder.stackDepth := by
  cases statement with
  | stack depth => exact absurd rfl (hs depth)
  | label name =>
    unfold run Builder.label at h
    cases hfind : a.builder.labels.find? name with
    | none =>
      simp only [hfind] at h
      cases h
      rfl
    | some index =>
      simp only [hfind] at h
      cases h
  | const name text => exact stackDepth_of_define h
  | load op text => exact stackDepth_of_load h
  | named op name =>
    cases h
    exact a.builder.stackDepth_addName name
  | _ =>
    cases h
    rfl

theorem stackDepth_of_runLine {line : List Char} (hline : ¬ SetsBudget line)
    (h : a.runLine line = .ok a') : a'.builder.stackDepth = a.builder.stackDepth := by
  obtain ⟨read, hread, h⟩ := bind_eq_ok_iff.1 h
  cases read with
  | none =>
    cases h
    rfl
  | some read =>
    obtain ⟨statement, extra⟩ := read
    obtain ⟨next, hnext, h⟩ := bind_eq_ok_iff.1 h
    have hkept : next.builder.stackDepth = a.builder.stackDepth := by
      refine stackDepth_of_run (fun depth hs => hline ?_) hnext
      rw [SetsBudget, hread, hs]
      trivial
    split at h
    · cases h
    · cases h
      exact hkept

/-- A text without a line that sets the budget leaves it open. -/
theorem stackDepth_of_runLines {number : Nat} {lines : List (List Char)}
    (hlines : ∀ line ∈ lines, ¬ SetsBudget line) (h : runLines number lines a = .ok a') :
    a'.builder.stackDepth = a.builder.stackDepth := by
  induction lines generalizing number a with
  | nil =>
    cases h
    rfl
  | cons line rest ih =>
    unfold runLines at h
    cases hline : a.runLine line with
    | error cause =>
      simp only [hline] at h
      cases h
    | ok next =>
      simp only [hline] at h
      have hhead := stackDepth_of_runLine (hlines line (List.mem_cons_self ..)) hline
      exact (ih (fun l hl => hlines l (List.mem_cons_of_mem _ hl)) h).trans hhead

end Assembler

/-- The code of a source text is read back as a block whose highest level is the budget, unless the
text sets another one. -/
theorem exists_budget_of_assemble {source : List Char} {f : Function} (h : assemble source = .ok f)
    (hopen : ∀ line ∈ Text.linesOf source, ¬ SetsBudget line) :
    ∃ b, Block.decode f.code = .ok b ∧ f.stackDepth = straightLineDepth b := by
  obtain ⟨a, hlines, hfinish⟩ := assemble_eq_ok_iff.1 h
  obtain ⟨c, hlayout, rfl⟩ := Builder.finish_eq_ok_iff.1 hfinish
  have hdepth : a.builder.stackDepth = none := Assembler.stackDepth_of_runLines hopen hlines
  have hbounded := layout_bounded
    (fun item hitem => (sound_of_runLines hlines item hitem).ne_extendedArg) hlayout
  refine ⟨c.map Instruction.raised, Block.decode_encode_eq_map_raised hbounded, ?_⟩
  rw [straightLineDepth_map_raised, hdepth]
  rfl

/-- The stack budget of a source text that does not set it is that of the listing read straight
through. A path exceeds it by no more than its jumps arrive above the level of the listing in all,
so that it suffices for every path when no jump arrives above the level. -/
theorem depth_le_of_assemble {source : List Char} {f : Function} (h : assemble source = .ok f)
    (hopen : ∀ line ∈ Text.linesOf source, ¬ SetsBudget line) :
    ∃ b, Block.decode f.code = .ok b ∧ f.stackDepth = straightLineDepth b ∧
      (∀ p depth above, b.Climbs p depth above → depth ≤ f.stackDepth + above) ∧
      (b.Grounded → b.DepthAtMost f.stackDepth) := by
  obtain ⟨b, hdecode, hbudget⟩ := exists_budget_of_assemble h hopen
  have hsolid : b.Solid := fun i hi => (Block.encodable_of_decode hdecode i hi).size_pos
  have hclimbs : ∀ p depth above, b.Climbs p depth above → depth ≤ f.stackDepth + above := by
    intro p depth above hclimbs
    have hlevel := Block.le_level_of_climbs hsolid hclimbs
    have hle := b.level_le p
    rw [hbudget]
    omega
  refine ⟨b, hdecode, hbudget, hclimbs, fun hgrounded p depth hreaches => ?_⟩
  obtain ⟨above, habove⟩ := Block.reaches_iff_exists_climbs.1 hreaches
  have hle := hclimbs p depth above habove
  rwa [hgrounded.eq_zero_of_climbs habove, Int.add_zero] at hle

/-- A loop that is left by a jump over the instructions that push most. -/
def loopSource : List Char :=
  (".label top\nload_fast 0\npop_jump_if_false done\nload_fast 0\nload_const 1\n" ++
    "binary_subtract\nstore_fast 0\njump_absolute top\n.label done\nload_const None\n" ++
    "return_value\n").toList

/-- The code of that text. -/
def Block.loop : Block :=
  [.bare .loadFast, .narrow .popJumpIfFalse 14, .bare .loadFast, .bare .loadConst,
    .bare .binarySubtract, .bare .storeFast, .narrow .jumpAbsolute 0, .narrow .loadConst 1,
    .bare .returnValue]

/-- Both jumps of the loop arrive at the level, and two entries suffice however often it is run. -/
theorem exists_depthAtMost_loop : ∃ f, assemble loopSource = .ok f ∧
    (∀ line ∈ Text.linesOf loopSource, ¬ SetsBudget line) ∧ f.stackDepth = 2 ∧
    Block.decode f.code = .ok .loop ∧ straightLineDepth .loop = 2 ∧
    (∀ p depth above, Block.loop.Climbs p depth above → depth ≤ 2 + above) ∧
    Block.loop.Grounded ∧ Block.loop.DepthAtMost 2 := by
  have hassemble : assemble loopSource = .ok ⟨"<asm>", Block.encode .loop, [.int 1, .none], [],
      .ofSpans 1 [(18, none)], 2⟩ := by
    decide +kernel
  have hopen : ∀ line ∈ Text.linesOf loopSource, ¬ SetsBudget line := by decide +kernel
  have hdecode : Block.decode (Block.encode .loop) = .ok .loop := Block.decode_encode (by decide)
  have hgrounded : Block.loop.Grounded := by decide
  obtain ⟨b, hb, hbudget, hclimbs, hdepth⟩ := depth_le_of_assemble hassemble hopen
  obtain rfl : Block.loop = b := Except.ok.inj (hdecode.symm.trans hb)
  exact ⟨_, hassemble, hopen, rfl, hdecode, hbudget.symm, hclimbs, hgrounded, hdepth hgrounded⟩

/-- A handler that begins with what the instruction that sets it up leaves for it. -/
def handlerSource : List Char := "setup_finally handler\n.label handler\nreturn_value\n".toList

/-- The budget of a listing need not suffice: the jump to a handler arrives with six entries, and no
instruction of the listing pushes any. -/
theorem exists_depth_above_budget : ∃ f b, assemble handlerSource = .ok f ∧
    (∀ line ∈ Text.linesOf handlerSource, ¬ SetsBudget line) ∧ Block.decode f.code = .ok b ∧
    f.stackDepth = 0 ∧ b.Reaches 2 6 ∧ ¬ b.DepthAtMost f.stackDepth := by
  have hassemble : assemble handlerSource =
      .ok ⟨"<asm>", Block.encode [.bare .setupFinally, .bare .returnValue], [], [],
        .ofSpans 1 [(4, none)], 0⟩ := by
    decide +kernel
  have hopen : ∀ line ∈ Text.linesOf handlerSource, ¬ SetsBudget line := by decide +kernel
  have hmem : (Instruction.bare .setupFinally, 0) ∈
      Block.placed [.bare .setupFinally, .bare .returnValue] := by
    decide
  have hreaches : Block.Reaches [.bare .setupFinally, .bare .returnValue] 2 (0 + 6) :=
    Block.Reaches.start.step (.jump hmem rfl)
  refine ⟨_, _, hassemble, hopen, Block.decode_encode (by decide), rfl, hreaches, fun hdepth => ?_⟩
  have hle := hdepth 2 _ hreaches
  exact absurd hle (by decide)

end Tripwire
