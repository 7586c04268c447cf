import Tripwire.Injector
import Tripwire.Proofs.Pool.Merge
import Tripwire.Proofs.Splice.Insertion
import Tripwire.Proofs.Splice.Removal

/-!
# Calls and requests

The call of a breakpoint refers to its names and its number by their places in
the pools. Pools only grow at their ends, so a call stays what it is, and the
look-up of a call among others finds it by its number.

* `Pooled`: a function whose pools hold what a call refers to;
* `IsCall`: instructions that are the call of a breakpoint;
* `Injector.callFor_eq_of_isPrefix`: calls stay as they are while pools grow;
* `findCall_eq_some`: the look-up among calls;
* `Injector.insert_eq_ok_iff`, `Injector.remove_eq_ok_iff`: the requests that are granted.
-/

namespace Tripwire

/-! ### Pools -/

/-- The pools of the function hold the names of the target and the number of the breakpoint. -/
structure Pooled (target : CallTarget) (f : Function) (id : Nat) : Prop where
  module_mem : target.module ∈ f.names
  callback_mem : target.callback ∈ f.names
  number_mem : Constant.int id ∈ f.constants

/-- The instructions are the call of a breakpoint: they load the names of the target and the number
of the breakpoint. -/
def IsCall (target : CallTarget) (f : Function) (id : Nat) (call : Block) : Prop :=
  ∃ module callback argument : UInt32, call = callBlock module callback argument ∧
    f.names[module.toNat]? = some target.module ∧
    f.names[callback.toNat]? = some target.callback ∧
    f.constants[argument.toNat]? = some (.int id)

theorem addable_callBlock (module callback argument : UInt32) :
    (callBlock module callback argument).Addable where
  encodable i hi := by
    simp only [callBlock, List.mem_cons, List.not_mem_nil, or_false] at hi
    rcases hi with rfl | rfl | rfl | rfl | rfl <;> exact .narrow (by decide) _
  flow_eq i hi := by
    simp only [callBlock, List.mem_cons, List.not_mem_nil, or_false] at hi
    rcases hi with rfl | rfl | rfl | rfl | rfl <;> rfl

theorem size_callBlock_pos (module callback argument : UInt32) :
    0 < (callBlock module callback argument).size := by
  have hpos := ((addable_callBlock module callback argument).encodable _
    (List.mem_cons_self ..)).size_pos
  rw [callBlock, Block.size_cons]
  omega

/-- A call has five instructions of at most eight bytes. -/
theorem size_callBlock_le (module callback argument : UInt32) :
    (callBlock module callback argument).size ≤ 40 := by
  have h1 := minimalWidth_le_four module
  have h2 := minimalWidth_le_four callback
  have h3 := minimalWidth_le_four argument
  have h4 := minimalWidth_le_four 1
  have h5 := minimalWidth_le_four 0
  simp only [callBlock, Instruction.narrow, Instruction.bare, Block.size_cons, Block.size_nil,
    Instruction.size, wordSize]
  omega

namespace Injector

variable {inj inj' : Injector} {f f' : Function} {line id : Nat}

theorem addable_callFor (inj : Injector) (f : Function) (id : Nat) : (inj.callFor f id).Addable :=
  addable_callBlock _ _ _

theorem length_callFor (inj : Injector) (f : Function) (id : Nat) :
    (inj.callFor f id).length = callLength := rfl

theorem size_callFor_pos (inj : Injector) (f : Function) (id : Nat) :
    0 < (inj.callFor f id).size :=
  size_callBlock_pos _ _ _

theorem size_callFor_le (inj : Injector) (f : Function) (id : Nat) :
    (inj.callFor f id).size ≤ 40 :=
  size_callBlock_le _ _ _

theorem size_callFor_lt (inj : Injector) (f : Function) (id : Nat) :
    (inj.callFor f id).size < limit32 / 2 :=
  (inj.size_callFor_le f id).trans_lt (by decide)

theorem isJump_of_mem_callFor {i : Instruction} (hi : i ∈ inj.callFor f id) :
    i.flow.isJump = false :=
  (inj.addable_callFor f id).isJump_eq hi

/-- Pools that hold what a call refers to do not grow. -/
theorem merge_of_pooled (h : Pooled inj.target f id) :
    Pool.merge f.names inj.callNames = f.names ∧
      Pool.merge f.constants [.int id] = f.constants := by
  refine ⟨Pool.merge_eq_self fun e he => ?_, Pool.merge_eq_self fun e he => ?_⟩
  · simp only [callNames, List.mem_cons, List.not_mem_nil, or_false] at he
    rcases he with rfl | rfl
    · exact h.module_mem
    · exact h.callback_mem
  · rw [List.mem_singleton.1 he]
    exact h.number_mem

theorem callFor_of_pooled (h : Pooled inj.target f id) :
    inj.callFor f id = callBlock (operandOf f.names inj.target.module)
      (operandOf f.names inj.target.callback) (operandOf f.constants (.int id)) := by
  obtain ⟨hnames, hconstants⟩ := merge_of_pooled h
  rw [callFor, hnames, hconstants]

theorem operandOf_of_isPrefix {α : Type} [DecidableEq α] {pool pool' : List α} {entry : α}
    (hmem : entry ∈ pool) (h : pool <+: pool') : operandOf pool' entry = operandOf pool entry := by
  obtain ⟨rest, rfl⟩ := h
  rw [operandOf, operandOf, List.idxOf_append_of_mem hmem]

/-- A call stays what it is while the pools grow. -/
theorem callFor_eq_of_isPrefix (h : Pooled inj.target f id) (htarget : inj'.target = inj.target)
    (hnames : f.names <+: f'.names) (hconstants : f.constants <+: f'.constants) :
    Pooled inj.target f' id ∧ inj'.callFor f' id = inj.callFor f id := by
  have h' : Pooled inj.target f' id :=
    ⟨hnames.subset h.module_mem, hnames.subset h.callback_mem, hconstants.subset h.number_mem⟩
  refine ⟨h', ?_⟩
  rw [callFor_of_pooled (htarget ▸ h'), callFor_of_pooled h, htarget,
    operandOf_of_isPrefix h.module_mem hnames, operandOf_of_isPrefix h.callback_mem hnames,
    operandOf_of_isPrefix h.number_mem hconstants]

/-- The call that is spliced in is the one of the function with the pools merged. -/
theorem callFor_merged (htarget : inj'.target = inj.target)
    (hnames : f'.names = Pool.merge f.names inj.callNames)
    (hconstants : f'.constants = Pool.merge f.constants [.int id]) :
    Pooled inj.target f' id ∧ inj'.callFor f' id = inj.callFor f id := by
  have h' : Pooled inj.target f' id := by
    refine ⟨?_, ?_, ?_⟩
    · rw [hnames, Pool.mem_merge]
      exact .inr (List.mem_cons_self ..)
    · rw [hnames, Pool.mem_merge]
      exact .inr (List.mem_cons_of_mem _ (List.mem_cons_self ..))
    · rw [hconstants, Pool.mem_merge]
      exact .inr (List.mem_cons_self ..)
  refine ⟨h', ?_⟩
  rw [callFor_of_pooled (htarget ▸ h'), htarget, hnames, hconstants]
  rfl

theorem getElem?_operandOf {α : Type} [DecidableEq α] {pool : List α} {entry : α}
    (hmem : entry ∈ pool) (hsize : pool.length < limit32) :
    pool[(operandOf pool entry).toNat]? = some entry := by
  have hlt := List.idxOf_lt_length_of_mem hmem
  have hnat : (operandOf pool entry).toNat = pool.idxOf entry :=
    UInt32.toNat_ofNat_of_lt' (Nat.lt_trans hlt hsize)
  rw [hnat, List.getElem?_eq_getElem hlt, List.getElem_idxOf hlt]

theorem isCall_callFor (h : Pooled inj.target f id) (hnames : f.names.length < limit32)
    (hconstants : f.constants.length < limit32) :
    IsCall inj.target f id (inj.callFor f id) :=
  ⟨_, _, _, callFor_of_pooled h, getElem?_operandOf h.module_mem hnames,
    getElem?_operandOf h.callback_mem hnames, getElem?_operandOf h.number_mem hconstants⟩

end Injector

/-! ### The look-up of a call -/

section Find

variable {module callback : UInt32} {constants : List Constant} {offset id : Nat}

theorem findCall_callBlock (argument : UInt32) (wanted : Constant) (rest : Block) {found : Constant}
    (hfound : constants[argument.toNat]? = some found) :
    findCall module callback constants wanted offset (callBlock module callback argument ++ rest) =
      if found = wanted then .ok (some offset)
      else findCall module callback constants wanted
        (offset + (callBlock module callback argument).size) rest := by
  simp only [callBlock, List.cons_append, List.nil_append, findCall, matchCall?_callBlock, hfound]

/-- The look-up among calls passes those with other numbers. -/
theorem findCall_eq_some {argument : Nat → UInt32} (ids : List Nat) (rest : Block)
    (hids : ∀ a ∈ ids, a ≠ id)
    (hconstants : ∀ a, a = id ∨ a ∈ ids → constants[(argument a).toNat]? = some (.int a)) :
    findCall module callback constants (.int id) offset
      (ids.flatMap (fun a => callBlock module callback (argument a)) ++
        (callBlock module callback (argument id) ++ rest)) =
      .ok (some (offset +
        Block.size (ids.flatMap fun a => callBlock module callback (argument a)))) := by
  -- The calls of the other breakpoints in front are passed one by one.
  induction ids generalizing offset with
  | nil =>
    rw [List.flatMap_nil, List.nil_append, findCall_callBlock _ _ _ (hconstants id (.inl rfl)),
      if_pos rfl]
    rfl
  | cons a ids ih =>
    have hne : Constant.int a ≠ Constant.int id := by
      intro h
      injection h with h
      exact hids a (List.mem_cons_self ..) (Int.ofNat_inj.1 h)
    rw [List.flatMap_cons, List.append_assoc,
      findCall_callBlock _ _ _ (hconstants a (.inr (List.mem_cons_self ..))), if_neg hne,
      ih (fun a' ha' => hids a' (List.mem_cons_of_mem _ ha'))
        (fun a' ha' => hconstants a' (ha'.imp_right (List.mem_cons_of_mem _))),
      Block.size_append, Nat.add_assoc]

end Find

/-! ### Requests -/

/-- The registry finds every active breakpoint by its number. -/
theorem Registry.get?_eq_some_iff {r : Registry} {id : Nat} {b : Breakpoint} :
    r.get? id = some b ↔ b ∈ r.active ∧ b.id = id := by
  constructor
  · intro h
    exact ⟨List.mem_of_find?_eq_some h, by simpa using List.find?_some h⟩
  · rintro ⟨hmem, rfl⟩
    have hnodup : (r.active.map Breakpoint.id).Nodup :=
      List.pairwise_map.2 (r.sorted.imp Nat.ne_of_lt)
    cases hget : r.get? b.id with
    | none => exact absurd rfl (Registry.get?_eq_none_iff.1 hget b hmem)
    | some c =>
      have hid : c.id = b.id := by simpa using List.find?_some hget
      rw [List.inj_on_of_nodup_map hnodup (List.mem_of_find?_eq_some hget) hmem hid]

theorem Registry.mem_erase {r : Registry} {b : Breakpoint} {id : Nat} :
    b ∈ (r.erase id).active ↔ b ∈ r.active ∧ b.id ≠ id := by
  simp [Registry.erase]

theorem filter_insertById {b : Breakpoint} {l : List Breakpoint} (fresh : ∀ c ∈ l, c.id ≠ b.id) :
    (insertById b l).filter (fun c => c.id != b.id) = l := by
  induction l with
  | nil => simp [insertById]
  | cons other rest ih =>
    have hother : other.id ≠ b.id := fresh other (List.mem_cons_self ..)
    have hrest : ∀ c ∈ rest, c.id ≠ b.id := fun c hc => fresh c (List.mem_cons_of_mem _ hc)
    unfold insertById
    split
    · rw [List.filter_cons_of_neg (by simp), List.filter_cons_of_pos (by simpa using hother),
        List.filter_eq_self.2 fun c hc => by simpa using hrest c hc]
    · rw [List.filter_cons_of_pos (by simpa using hother), ih hrest]

theorem Registry.eq_of_active_eq {r r' : Registry} (h : r'.active = r.active) : r' = r := by
  cases r
  cases r'
  cases h
  rfl

/-- A breakpoint that becomes active and inactive again leaves the registry as it was. -/
theorem Registry.erase_of_insertById {r r' : Registry} {b : Breakpoint} (hnone : r.get? b.id = none)
    (h : r'.active = insertById b r.active) : r'.erase b.id = r := by
  refine Registry.eq_of_active_eq ?_
  show r'.active.filter (fun c => c.id != b.id) = r.active
  rw [h]
  exact filter_insertById (Registry.get?_eq_none_iff.1 hnone)

theorem Registry.activate_eq_ok_iff {r r' : Registry} {b : Breakpoint} :
    r.activate b = .ok r' ↔ r.get? b.id = none ∧ r'.active = insertById b r.active := by
  unfold Registry.activate
  split
  · rename_i other hsome
    simp [hsome]
  · rename_i hnone
    simp only [Except.ok.injEq, hnone, true_and]
    exact ⟨fun h => h ▸ rfl, fun h => (Registry.eq_of_active_eq h).symm⟩

theorem Registry.ensureInactive_eq_ok_iff {r : Registry} {id : Nat} {u : Unit} :
    r.ensureInactive id = .ok u ↔ r.get? id = none := by
  unfold Registry.ensureInactive
  cases r.get? id <;> simp

theorem Registry.ensureActive_eq_ok_iff {r : Registry} {id : Nat} {b : Breakpoint} :
    r.ensureActive id = .ok b ↔ r.get? id = some b := by
  unfold Registry.ensureActive
  cases r.get? id <;> simp

theorem Registry.deactivate_eq_ok_iff {r : Registry} {id : Nat} {p : Breakpoint × Registry} :
    r.deactivate id = .ok p ↔ ∃ b, r.get? id = some b ∧ p = (b, r.erase id) := by
  simp only [Registry.deactivate, bind_eq_ok_iff, Registry.ensureActive_eq_ok_iff, pure_eq_ok_iff]
  constructor
  · rintro ⟨b, hb, rfl⟩
    exact ⟨b, hb, rfl⟩
  · rintro ⟨b, hb, rfl⟩
    exact ⟨b, hb, rfl⟩

namespace Injector

variable {inj inj' : Injector} {f f' : Function} {line id : Nat}

/-- A breakpoint is set when its number is free, its line has code, its call can be spliced in front
of that code, the line table can follow, and the stack budget stays in range. -/
theorem insert_eq_ok_iff :
    inj.insert f line id = .ok (inj', f') ↔ ∃ offset e lines,
      inj.registry.get? id = none ∧ f.offsetOfLine line = .ok offset ∧
      insertAt f.code (inj.callFor f id) offset = .ok e ∧ f.lines.followed e.shifts = .ok lines ∧
      f.stackDepth + (inj.callFor f id).stackGrowth < limit32 ∧
      inj'.target = inj.target ∧
      inj'.registry.active = insertById
        ⟨id, line, (inj.callFor f id).size, (inj.callFor f id).stackGrowth⟩ inj.registry.active ∧
      f' =
        { f with
          code := e.code
          constants := Pool.merge f.constants [.int id]
          names := Pool.merge f.names inj.callNames
          lines := lines
          stackDepth := f.stackDepth + (inj.callFor f id).stackGrowth } := by
  simp only [insert, insertion, planInsert, changeInsert, bind_eq_ok_iff, pure_eq_ok_iff,
    Registry.ensureInactive_eq_ok_iff, insertAt_eq_ok_iff, Prod.mk.injEq]
  constructor
  · rintro ⟨c, ⟨p, ⟨_, hnone, offset, hoffset, b, hb, d, hd, rfl⟩, e, he, lines, hlines, hc⟩,
      rfl, rfl⟩
    split at hc
    · rename_i hdepth
      obtain ⟨registry, hregistry, hc⟩ := bind_eq_ok_iff.1 hc
      rw [pure_eq_ok_iff] at hc
      subst hc
      exact ⟨offset, e, lines, hnone, hoffset, ⟨b, d, hb, hd, he⟩, hlines, hdepth, rfl,
        (Registry.activate_eq_ok_iff.1 hregistry).2, rfl⟩
    · rw [throw_eq_ok_iff] at hc
      exact hc.elim
  · rintro ⟨offset, e, lines, hnone, hoffset, ⟨b, d, hb, hd, he⟩, hlines, hdepth, htarget,
      hregistry, rfl⟩
    refine ⟨⟨e, lines, f.stackDepth + (inj.callFor f id).stackGrowth,
      Pool.appended f.names inj.callNames, Pool.appended f.constants [.int id], inj'.registry⟩,
      ⟨_, ⟨(), hnone, offset, hoffset, b, hb, d, hd, rfl⟩, e, he, lines, hlines, ?_⟩, ?_, rfl⟩
    · rw [if_pos hdepth, bind_eq_ok_iff]
      exact ⟨inj'.registry, Registry.activate_eq_ok_iff.2 ⟨hnone, hregistry⟩, rfl⟩
    · cases inj'
      simp only at htarget
      rw [htarget]

/-- The call of a breakpoint is looked for among the calls at the offset. -/
theorem locateCall_eq_ok_iff {b : Block} (hb : b.Solid) {offset start : Nat} :
    inj.locateCall f b offset line id = .ok start ↔ ∃ k < b.length, b.start k = offset ∧
      inj.target.module ∈ f.names ∧ inj.target.callback ∈ f.names ∧
      findCall (operandOf f.names inj.target.module) (operandOf f.names inj.target.callback)
        f.constants (.int id) offset (b.drop k) = .ok (some start) := by
  unfold locateCall
  simp only
  split
  · rename_i module callback hmodule hcallback
    obtain ⟨hmem, rfl⟩ := Pool.find?_eq_some_iff.1 hmodule
    obtain ⟨hmem', rfl⟩ := Pool.find?_eq_some_iff.1 hcallback
    simp only [bind_eq_ok_iff, Block.indexAt_eq_ok_iff hb]
    constructor
    · rintro ⟨k, ⟨hk, hstart⟩, found, hfound, h⟩
      cases found with
      | none => cases h
      | some found =>
        rw [pure_eq_ok_iff] at h
        subst h
        exact ⟨k, hk, hstart, hmem, hmem', hfound⟩
    · rintro ⟨k, hk, hstart, -, -, hfound⟩
      exact ⟨k, ⟨hk, hstart⟩, some start, hfound, rfl⟩
  · rename_i hnone
    rw [throw_eq_ok_iff, false_iff]
    rintro ⟨k, -, -, hmem, hmem', -⟩
    exact hnone _ _ (Pool.find?_eq_some_iff.2 ⟨hmem, rfl⟩) (Pool.find?_eq_some_iff.2 ⟨hmem', rfl⟩)

/-- A breakpoint is cleared when its number is active, its call is found where its line begins and
can be taken out, and the line table and the stack budget can follow. -/
theorem remove_eq_ok_iff :
    inj.remove f line id = .ok (inj', f') ↔ ∃ bp offset b start e lines,
      inj.registry.get? id = some bp ∧ f.offsetOfLine line = .ok offset ∧
      Block.ofCode f.code = .ok b ∧ inj.locateCall f b offset line id = .ok start ∧
      removeAt f.code start callLength = .ok e ∧ e.removed.size = bp.injectedSize ∧
      f.lines.followed e.shifts = .ok lines ∧ bp.stackGrowth ≤ f.stackDepth ∧
      inj' = ⟨inj.target, inj.registry.erase id⟩ ∧
      f' =
        { f with
          code := e.code
          lines := lines
          stackDepth := f.stackDepth - bp.stackGrowth } := by
  have hid : ∀ bp, inj.registry.get? id = some bp → bp.id = id := by
    intro bp hbp
    simpa using List.find?_some hbp
  simp only [remove, removal, planRemove, changeRemove, bind_eq_ok_iff, pure_eq_ok_iff,
    Registry.ensureActive_eq_ok_iff, removeAt_eq_ok_iff, Prod.mk.injEq]
  constructor
  · rintro ⟨c, ⟨p, ⟨bp, hbp, offset, hoffset, b, hb, start, hstart, d, hd, rfl⟩, e, he, hc⟩, rfl,
      rfl⟩
    split at hc
    · rename_i hsize
      obtain ⟨lines, hlines, hc⟩ := bind_eq_ok_iff.1 hc
      split at hc
      · rename_i hdepth
        obtain ⟨p, hp, hc⟩ := bind_eq_ok_iff.1 hc
        obtain ⟨other, -, rfl⟩ := Registry.deactivate_eq_ok_iff.1 hp
        rw [pure_eq_ok_iff] at hc
        subst hc
        refine ⟨bp, offset, b, start, e, lines, hbp, hoffset, hb, hstart, ⟨b, d, hb, hd, he⟩,
          hsize, hlines, hdepth, ?_, ?_⟩
        · rw [hid bp hbp]
        · simp [Function.change]
      · rw [throw_eq_ok_iff] at hc
        exact hc.elim
    · rw [throw_eq_ok_iff] at hc
      exact hc.elim
  · rintro ⟨bp, offset, b, start, e, lines, hbp, hoffset, hb, hstart, ⟨b', d, hb', hd, he⟩, hsize,
      hlines, hdepth, rfl, rfl⟩
    rw [hb] at hb'
    cases hb'
    refine ⟨⟨e, lines, f.stackDepth - bp.stackGrowth, [], [], inj.registry.erase bp.id⟩,
      ⟨_, ⟨bp, hbp, offset, hoffset, b, hb, start, hstart, d, hd, rfl⟩, e, he, ?_⟩, ?_, ?_⟩
    · rw [if_pos hsize, bind_eq_ok_iff]
      refine ⟨lines, hlines, ?_⟩
      rw [if_pos hdepth, bind_eq_ok_iff]
      refine ⟨_, Registry.deactivate_eq_ok_iff.2 ⟨bp, ?_, rfl⟩, rfl⟩
      rw [hid bp hbp, hbp]
    · rw [hid bp hbp]
    · simp [Function.change]

end Injector

end Tripwire
