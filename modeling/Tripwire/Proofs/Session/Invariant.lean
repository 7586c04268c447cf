import Tripwire.Proofs.Session.Run

/-!
# The invariant of sessions

However breakpoints are set and cleared on a function, its code is the original
one with the calls of the set breakpoints in front of the instructions that their
lines resolve to, and the registry knows exactly these breakpoints.

* `Kept`: the invariant;
* `Kept.start`, `Kept.insert`, `Kept.remove`: what one request does to it;
* `kept_of_reachable`: it holds in every session;
* `instrumented_of_reachable`: what it says about the code, the tables and the registry.
-/

namespace Tripwire

namespace Session

/-- The call of a breakpoint number in the function as it is. -/
def call (s : Session) (id : Nat) : Block := s.injector.callFor s.function id

/-- The calls in front of the instructions of the original code. -/
def front (s : Session) (f : Function) (b : Block) : Nat → Block := frontOf f b s.call s.marks

/-- What the registry holds for a breakpoint. -/
def breakpoint (s : Session) (k : Mark) : Breakpoint :=
  ⟨k.id, k.line, (s.call k.id).size, (s.call k.id).stackGrowth⟩

/-- The stack budget that the breakpoints have added. -/
def budget (s : Session) : Nat := (s.marks.map fun k => (s.call k.id).stackGrowth).sum

section Same

variable {s s' : Session} {k : Mark}

theorem breakpoint_congr (h : s'.call k.id = s.call k.id) : s'.breakpoint k = s.breakpoint k := by
  rw [breakpoint, breakpoint, h]

/-- One breakpoint more adds the growth of its call to the budget. -/
theorem budget_of_perm (hperm : s.marks.Perm (k :: s'.marks))
    (hcall : ∀ k' ∈ s'.marks, s'.call k'.id = s.call k'.id) :
    s.budget = (s.call k.id).stackGrowth + s'.budget := by
  have hgrowths : ∀ k' ∈ s'.marks, (s'.call k'.id).stackGrowth = (s.call k'.id).stackGrowth :=
    fun k' hk' => congrArg Block.stackGrowth (hcall k' hk')
  have hsum := (hperm.map fun k' => (s.call k'.id).stackGrowth).sum_eq
  rw [List.map_cons, List.sum_cons, ← List.map_congr_left hgrowths] at hsum
  exact hsum

end Same

end Session

/-- The invariant of the sessions on the function `f` with the instructions `b`. -/
structure Kept (target : CallTarget) (f : Function) (b : Block) (s : Session) : Prop where
  target_eq : s.injector.target = target
  small : s.function.Small
  nodup : (s.marks.map Mark.id).Nodup
  resolved : ∀ k ∈ s.marks, ∃ m < b.length, f.offsetOfLine k.line = .ok (b.start m)
  pooled : ∀ k ∈ s.marks, Pooled target s.function k.id
  names : f.names <+: s.function.names
  constants : f.constants <+: s.function.constants
  registry : ∀ bp, bp ∈ s.injector.registry.active ↔ ∃ k ∈ s.marks, s.breakpoint k = bp
  stackDepth_eq : s.function.stackDepth = f.stackDepth + s.budget
  carries : ∃ body, Carries f b (s.front f b) body s.function

namespace Kept

variable {target : CallTarget} {f fn' : Function} {b : Block} {s : Session} {inj' : Injector}
  {line id : Nat}

theorem start (hf : f.WellFormed b) : Kept target f b (.start target f) where
  target_eq := rfl
  small := hf.small
  nodup := List.nodup_nil
  resolved k hk := by cases hk
  pooled k hk := by cases hk
  names := List.prefix_rfl
  constants := List.prefix_rfl
  registry bp := by simp [Session.start, Injector.start, Registry.empty]
  stackDepth_eq := rfl
  carries := ⟨b, .refl hf⟩

theorem isJump_of_mem_front {i : Instruction} {m : Nat} (hi : i ∈ s.front f b m) :
    i.flow.isJump = false := by
  obtain ⟨k, -, hik⟩ := List.mem_flatMap.1 hi
  exact Injector.isJump_of_mem_callFor hik

/-- A breakpoint that is set. -/
theorem insert (hf : f.WellFormed b) (h : Kept target f b s) (hsmall : fn'.Small)
    (hok : s.injector.insert s.function line id = .ok (inj', fn')) :
    Kept target f b ⟨inj', fn', ⟨id, line⟩ :: s.marks⟩ := by
  obtain ⟨body, hcarries⟩ := h.carries
  obtain ⟨m, hm, hline, hinsert⟩ := hcarries.insert hf h.small hsmall hok
  obtain ⟨offset, e, lines, hnone, -, -, -, -, htarget, hactive, hfn'⟩ :=
    Injector.insert_eq_ok_iff.1 hok
  have hnames : fn'.names = Pool.merge s.function.names s.injector.callNames := by rw [hfn']
  have hconstants : fn'.constants = Pool.merge s.function.constants [.int id] := by rw [hfn']
  have hnamesPrefix : s.function.names <+: fn'.names := hnames ▸ Pool.isPrefix_merge _ _
  have hconstantsPrefix : s.function.constants <+: fn'.constants :=
    hconstants ▸ Pool.isPrefix_merge _ _
  obtain ⟨hpooled, hcall⟩ := Injector.callFor_merged htarget hnames hconstants
  obtain rfl := h.target_eq
  -- The pools only grow behind the entries that the older calls load, so those calls stay.
  have hcalls : ∀ k ∈ s.marks, Pooled s.injector.target fn' k.id ∧
      inj'.callFor fn' k.id = s.injector.callFor s.function k.id := fun k hk =>
    Injector.callFor_eq_of_isPrefix (h.pooled k hk) htarget hnamesPrefix hconstantsPrefix
  have hfresh : ∀ k ∈ s.marks, k.id ≠ id := by
    intro k hk
    exact Registry.get?_eq_none_iff.1 hnone _ ((h.registry _).2 ⟨k, hk, rfl⟩)
  have hfronts : ∀ j, frontOf f b (inj'.callFor fn') s.marks j = s.front f b j :=
    frontOf_congr fun k hk => (hcalls k hk).2
  refine
    { target_eq := htarget
      small := hsmall
      nodup := ?_
      resolved := ?_
      pooled := ?_
      names := h.names.trans hnamesPrefix
      constants := h.constants.trans hconstantsPrefix
      registry := fun bp => ?_
      stackDepth_eq := ?_
      carries := ?_ }
  · refine List.nodup_cons.2 ⟨fun hmem => ?_, h.nodup⟩
    obtain ⟨k, hk, heq⟩ := List.mem_map.1 hmem
    exact hfresh k hk heq
  · intro k hk
    rcases List.mem_cons.1 hk with rfl | hk
    · exact ⟨m, hm, hline⟩
    · exact h.resolved k hk
  · intro k hk
    rcases List.mem_cons.1 hk with rfl | hk
    · exact hpooled
    · exact (hcalls k hk).1
  · have hnew : Session.breakpoint ⟨inj', fn', ⟨id, line⟩ :: s.marks⟩ ⟨id, line⟩ =
        ⟨id, line, (s.injector.callFor s.function id).size,
          (s.injector.callFor s.function id).stackGrowth⟩ := by
      rw [Session.breakpoint, Session.call, hcall]
    have hold : ∀ k ∈ s.marks, Session.breakpoint ⟨inj', fn', ⟨id, line⟩ :: s.marks⟩ k =
        s.breakpoint k := fun k hk => Session.breakpoint_congr (hcalls k hk).2
    rw [hactive, mem_insertById, h.registry]
    simp only [List.exists_mem_cons_iff, hnew]
    refine or_congr eq_comm (exists_congr fun k => and_congr_right fun hk => ?_)
    rw [hold k hk]
  · have hbudget : Session.budget ⟨inj', fn', ⟨id, line⟩ :: s.marks⟩ =
        (inj'.callFor fn' id).stackGrowth + s.budget :=
      Session.budget_of_perm (.refl _) fun k hk => (hcalls k hk).2.symm
    rw [hbudget, hcall, hfn']
    simp only [h.stackDepth_eq]
    omega
  · refine hinsert _ ?_ (fun j hj => ?_) fun j i hi => isJump_of_mem_front hi
    · rw [Session.front, frontOf_cons_of_resolves hline]
      exact congrArg₂ _ hcall (hfronts m)
    · rw [Session.front, frontOf_cons_of_ne hf.valid.solid hm hline hj]
      exact hfronts j

/-- A breakpoint that is set, with those set after and before it. -/
theorem exists_split (h : Kept target f b s) {k : Mark} (hk : k ∈ s.marks) : ∃ before after,
    s.marks = before ++ k :: after ∧ ((before ++ after).map Mark.id).Nodup ∧
      ∀ k' ∈ before ++ after, k'.id ≠ k.id := by
  obtain ⟨before, after, hmarks⟩ := List.append_of_mem hk
  have hnodup := h.nodup
  rw [hmarks, List.map_append, List.map_cons, List.nodup_middle, List.nodup_cons,
    ← List.map_append] at hnodup
  refine ⟨before, after, hmarks, hnodup.2, ?_⟩
  intro k' hk' heq
  exact hnodup.1 (List.mem_map.2 ⟨k', hk', heq⟩)

/-- An active breakpoint is one that is set. -/
theorem exists_mark (h : Kept target f b s) {bp : Breakpoint}
    (hbp : s.injector.registry.get? id = some bp) : ∃ k before after,
      s.marks = before ++ k :: after ∧ k.id = id ∧ bp = s.breakpoint k ∧
      ((before ++ after).map Mark.id).Nodup ∧ (∀ k' ∈ before ++ after, k'.id ≠ id) ∧
      (s.marks.filter fun k => k.id ≠ id) = before ++ after := by
  obtain ⟨hmem, hid⟩ := Registry.get?_eq_some_iff.1 hbp
  obtain ⟨k, hk, rfl⟩ := (h.registry bp).1 hmem
  obtain rfl : k.id = id := hid
  obtain ⟨before, after, hmarks, hnodup, hother⟩ := h.exists_split hk
  refine ⟨k, before, after, hmarks, rfl, rfl, hnodup, hother, ?_⟩
  rw [hmarks, List.filter_append, List.filter_cons_of_neg (by simp), ← List.filter_append,
    List.filter_eq_self.2 fun k' hk' => decide_eq_true (hother k' hk')]

/-- The numbers that are active are those of the breakpoints that are set. -/
theorem exists_get?_iff (h : Kept target f b s) :
    (∃ bp, s.injector.registry.get? id = some bp) ↔ ∃ k ∈ s.marks, k.id = id := by
  constructor
  · rintro ⟨bp, hbp⟩
    obtain ⟨hmem, hid⟩ := Registry.get?_eq_some_iff.1 hbp
    obtain ⟨k, hk, rfl⟩ := (h.registry bp).1 hmem
    exact ⟨k, hk, hid⟩
  · rintro ⟨k, hk, rfl⟩
    exact ⟨_, Registry.get?_eq_some_iff.2 ⟨(h.registry _).2 ⟨k, hk, rfl⟩, rfl⟩⟩

/-- The active breakpoints are those that are set. -/
theorem active_perm (h : Kept target f b s) :
    s.injector.registry.active.Perm (s.marks.map s.breakpoint) := by
  have hactive : s.injector.registry.active.Nodup :=
    s.injector.registry.sorted.imp fun hlt heq => Nat.ne_of_lt hlt (congrArg Breakpoint.id heq)
  have hmarks : (s.marks.map s.breakpoint).Nodup := by
    refine List.Nodup.of_map Breakpoint.id ?_
    rw [List.map_map]
    exact h.nodup
  rw [List.perm_ext_iff_of_nodup hactive hmarks]
  intro bp
  rw [h.registry, List.mem_map]

/-- The call of a breakpoint that is set stands in the front of its line, behind the calls of those
set after it. -/
theorem stands (h : Kept target f b s) {k : Mark} {before after : List Mark} {m : Nat}
    (hmarks : s.marks = before ++ k :: after) (hother : ∀ k' ∈ before ++ after, k'.id ≠ k.id)
    (hline : f.offsetOfLine k.line = .ok (b.start m)) :
    Stands s.injector s.function (s.front f b) m k.id ((marksAt f b before m).map Mark.id)
      (frontOf f b s.call after m) := by
  have hpooled : ∀ k' ∈ s.marks, Pooled s.injector.target s.function k'.id := by
    intro k' hk'
    rw [h.target_eq]
    exact h.pooled k' hk'
  refine ⟨fun a ha => ?_, fun a ha => ?_, ?_⟩
  · obtain ⟨k', hk', rfl⟩ := List.mem_map.1 ha
    exact hother k' (List.mem_append_left _ (List.mem_of_mem_filter hk'))
  · rw [hmarks] at hpooled
    rcases ha with rfl | ha
    · exact hpooled k (List.mem_append_right _ (List.mem_cons_self ..))
    · obtain ⟨k', hk', rfl⟩ := List.mem_map.1 ha
      exact hpooled k' (List.mem_append_left _ (List.mem_of_mem_filter hk'))
  · rw [Session.front, hmarks, frontOf_append, frontOf_cons_of_resolves hline, List.flatMap_map,
      ← List.append_assoc]
    rfl

/-- The call of a breakpoint that is set stands in the front of its line. -/
theorem exists_stands (h : Kept target f b s) {k : Mark} (hk : k ∈ s.marks) : ∃ m < b.length,
    f.offsetOfLine k.line = .ok (b.start m) ∧ ∃ ids after,
      Stands s.injector s.function (s.front f b) m k.id ids after := by
  obtain ⟨before, after, hmarks, -, hother⟩ := h.exists_split hk
  obtain ⟨m, hm, hline⟩ := h.resolved k hk
  exact ⟨m, hm, hline, _, _, h.stands hmarks hother hline⟩

/-- A breakpoint that is cleared. -/
theorem remove (hf : f.WellFormed b) (h : Kept target f b s) (hsmall : fn'.Small)
    (hadmits : ∀ k ∈ s.marks, k.id = id → k.line = line)
    (hok : s.injector.remove s.function line id = .ok (inj', fn')) :
    Kept target f b ⟨inj', fn', s.marks.filter fun k => k.id ≠ id⟩ := by
  obtain ⟨body, hcarries⟩ := h.carries
  obtain ⟨bp, offset, w, start, e, lines, hbp, -, -, -, -, -, -, -, rfl, hfn'⟩ :=
    Injector.remove_eq_ok_iff.1 hok
  obtain ⟨k, before, after, hmarks, hid, rfl, hnodup, hother, hfilter⟩ := h.exists_mark hbp
  have hk : k ∈ s.marks := by
    rw [hmarks]
    exact List.mem_append_right _ (List.mem_cons_self ..)
  have hline := hadmits k hk hid
  have hkept : ∀ k' ∈ before ++ after, k' ∈ s.marks := by
    intro k' hk'
    rw [hmarks]
    rcases List.mem_append.1 hk' with hk' | hk'
    · exact List.mem_append_left _ hk'
    · exact List.mem_append_right _ (List.mem_cons_of_mem _ hk')
  obtain ⟨m, hm, hresolved⟩ := h.resolved k hk
  have hnames : fn'.names = s.function.names := by rw [hfn']
  have hconstants : fn'.constants = s.function.constants := by rw [hfn']
  have hcall : Injector.callFor ⟨s.injector.target, s.injector.registry.erase id⟩ fn' = s.call := by
    funext a
    rw [Injector.callFor, hnames, hconstants]
    rfl
  obtain rfl := h.target_eq
  rw [hfilter]
  refine
    { target_eq := rfl
      small := hsmall
      nodup := hnodup
      resolved := fun k' hk' => h.resolved k' (hkept k' hk')
      pooled := fun k' hk' => ?_
      names := hnames ▸ h.names
      constants := hconstants ▸ h.constants
      registry := fun other => ?_
      stackDepth_eq := ?_
      carries := ?_ }
  · obtain ⟨hmodule, hcallback, hnumber⟩ := h.pooled k' (hkept k' hk')
    exact ⟨hnames ▸ hmodule, hnames ▸ hcallback, hconstants ▸ hnumber⟩
  · have hsame : ∀ k', Session.breakpoint ⟨⟨s.injector.target, s.injector.registry.erase id⟩, fn',
        before ++ after⟩ k' = s.breakpoint k' := fun k' =>
      Session.breakpoint_congr (congrFun hcall k'.id)
    simp only [Registry.mem_erase, h.registry, hsame]
    constructor
    · rintro ⟨⟨k', hk', rfl⟩, hne⟩
      refine ⟨k', ?_, rfl⟩
      rw [← hfilter]
      exact List.mem_filter.2 ⟨hk', decide_eq_true hne⟩
    · rintro ⟨k', hk', rfl⟩
      exact ⟨⟨k', hkept k' hk', rfl⟩, hother k' hk'⟩
  · have hbudget := @Session.budget_of_perm s ⟨⟨s.injector.target, s.injector.registry.erase id⟩,
      fn', before ++ after⟩ k (hmarks ▸ List.perm_middle) fun k' _ => congrFun hcall k'.id
    have hdepth : fn'.stackDepth = s.function.stackDepth - (s.call k.id).stackGrowth := by
      rw [hfn']
      rfl
    have hold := h.stackDepth_eq
    simp only
    omega
  · have hfront' : frontOf f b s.call (before ++ after) m =
        ((marksAt f b before m).map Mark.id).flatMap s.call ++ [] ++
          frontOf f b s.call after m := by
      rw [frontOf_append, List.flatMap_map, List.append_nil]
      rfl
    have hnew : Session.front ⟨⟨s.injector.target, s.injector.registry.erase id⟩, fn',
        before ++ after⟩ f b = frontOf f b s.call (before ++ after) :=
      congrArg (fun call => frontOf f b call (before ++ after)) hcall
    have hstands := h.stands hmarks (fun k' hk' => hid ▸ hother k' hk') hresolved
    rw [hid] at hstands
    rw [hnew]
    refine hcarries.remove hf h.small hm (hline ▸ hresolved) hstands hfront' (fun j hj => ?_)
      (fun j i hi => ?_) hok
    · rw [Session.front, hmarks, frontOf_append, frontOf_append,
        frontOf_cons_of_ne hf.valid.solid hm hresolved hj]
    · obtain ⟨k', -, hik⟩ := List.mem_flatMap.1 hi
      exact Injector.isJump_of_mem_callFor hik

/-- Every request keeps the invariant. -/
theorem after (hf : f.WellFormed b) (h : Kept target f b s) {r : Request} (hadmits : s.Admits r)
    (hsmall : (s.after r).function.Small) : Kept target f b (s.after r) := by
  cases hrun : r.run s.injector s.function with
  | error fault =>
    rw [Session.after_of_error hrun]
    exact h
  | ok p =>
    obtain ⟨inj', fn'⟩ := p
    rw [Session.after_of_ok hrun] at hsmall ⊢
    cases r with
    | insert line id => exact h.insert hf hsmall hrun
    | remove line id => exact h.remove hf hsmall hadmits hrun

end Kept

theorem kept_of_reachable {target : CallTarget} {f : Function} {b : Block} {s : Session}
    (hf : f.WellFormed b) (h : Reachable target f s) : Kept target f b s := by
  induction h with
  | start => exact .start hf
  | after r _ hadmits hsmall ih => exact ih.after hf hadmits hsmall

/-- After any requests, granted or refused, the code of the function is the original instructions,
with new operands and widths for the jumps only, and in front of every instruction the calls of the
breakpoints whose lines resolve to it, the latest first. Every jump leads where it led, behind the
calls, and the function stays well-formed. Each call loads the number of its breakpoint, the
registry holds the breakpoints that are set, and the entries of the line table begin at the
calls. -/
theorem instrumented_of_reachable {target : CallTarget} {f : Function} {b : Block} {s : Session}
    (hf : f.WellFormed b) (h : Reachable target f s) : ∃ body,
    s.function.WellFormed (weave (s.front f b) 0 body) ∧
      List.Forall₂ Instruction.Resized b body ∧
      (∀ k m, b.LeadsTo k m → Block.LeadsTo (weave (s.front f b) 0 body)
        (placeIndex (s.front f b) k) (placeIndex (s.front f b) m)) ∧
      (∃ g, (∀ m ≤ b.length, g (b.start m) =
          Block.start (weave (s.front f b) 0 body) (frontIndex (s.front f b) m)) ∧
        s.function.lines.entries = f.lines.entries.map (LineEntry.moved g)) ∧
      (∀ k ∈ s.marks, IsCall target s.function k.id (s.call k.id) ∧
        ∃ m < b.length, f.offsetOfLine k.line = .ok (b.start m)) ∧
      (s.marks.map Mark.id).Nodup ∧
      (∀ bp, bp ∈ s.injector.registry.active ↔ ∃ k ∈ s.marks, s.breakpoint k = bp) ∧
      f.names <+: s.function.names ∧ f.constants <+: s.function.constants ∧
      s.function.stackDepth = f.stackDepth + s.budget := by
  have hkept := kept_of_reachable hf h
  obtain ⟨body, hcarries⟩ := hkept.carries
  refine ⟨body, hcarries.wellFormed hf hkept.small, hcarries.resized, hcarries.leadsTo,
    hcarries.entries_eq hf hkept.small, fun k hk => ⟨?_, hkept.resolved k hk⟩, hkept.nodup,
    hkept.registry, hkept.names, hkept.constants, hkept.stackDepth_eq⟩
  have hpooled := hkept.pooled k hk
  obtain rfl := hkept.target_eq
  exact Injector.isCall_callFor hpooled hkept.small.names_lt hkept.small.constants_lt

/-! ### A session -/

/-- A function of two lines, the first of which jumps to the second. -/
def Function.twoLines : Function where
  name := "main"
  code := Block.encode [⟨.jumpAbsolute, 2, 1⟩, .bare .returnValue]
  constants := []
  names := []
  lines := .ofSpans 1 [(2, some 1), (2, some 2)]
  stackDepth := 0

theorem wellFormed_twoLines :
    Function.twoLines.WellFormed [⟨.jumpAbsolute, 2, 1⟩, .bare .returnValue] where
  decode_eq := Block.decode_encode (by decide)
  steady := by decide
  targets := Block.checkTargets_eq_ok_iff.2 (by decide)
  size_eq := rfl
  entries := by decide
  small := ⟨by decide, by decide, by decide⟩

theorem exists_insert_twoLines : ∃ inj f,
    (Injector.start .standard).insert .twoLines 2 7 = .ok (inj, f) ∧ f.Small := by
  have hvalid := wellFormed_twoLines.valid
  have hinsert : insertAt Function.twoLines.code (callBlock 0 1 0) 2 = .ok
      ⟨Block.encode (⟨.jumpAbsolute, 12, 1⟩ :: callBlock 0 1 0 ++ [.bare .returnValue]),
        [.before 2 10], []⟩ :=
    insertAt_eq_ok_iff.2 ⟨_, _,
      Block.ofCode_eq_ok_iff.2 ⟨wellFormed_twoLines.decode_eq, hvalid.steady⟩,
      (Block.draftInsert_eq_ok_iff hvalid.solid).2 ⟨1, by decide, rfl, by decide, by decide, rfl⟩,
      Block.finish_eq_ok_iff.2 ⟨_, rfl, rfl, by decide, rfl, rfl⟩⟩
  have hlines : Function.twoLines.lines.followed [.before 2 10] =
      .ok (.ofSpans 1 [(2, some 1), (12, some 2)]) := by
    rw [LineTable.followed, LineTable.follow, LineTable.fallingOrder, List.mergeSort_singleton]
    rfl
  refine ⟨⟨.standard, ⟨[⟨7, 2, _, _⟩], List.pairwise_singleton ..⟩⟩, _,
    Injector.insert_eq_ok_iff.2 ⟨2, _, _, rfl, rfl, hinsert, hlines, by decide, rfl, rfl, rfl⟩, ?_⟩
  exact ⟨by decide, by decide, by decide⟩

/-- A breakpoint in front of the target of a jump. -/
theorem exists_reachable_with_call : ∃ s, Reachable .standard .twoLines s ∧ s.marks = [⟨7, 2⟩] ∧
    ∃ body, s.function.WellFormed (weave (s.front .twoLines
      [⟨.jumpAbsolute, 2, 1⟩, .bare .returnValue]) 0 body) := by
  obtain ⟨inj, f, hinsert, hsmall⟩ := exists_insert_twoLines
  have hafter : (Session.start .standard .twoLines).after (.insert 2 7) = ⟨inj, f, [⟨7, 2⟩]⟩ :=
    Session.after_of_ok hinsert
  have hreachable : Reachable .standard .twoLines ⟨inj, f, [⟨7, 2⟩]⟩ := by
    have hstep := Reachable.start.after (.insert 2 7) trivial (by rw [hafter]; exact hsmall)
    rwa [hafter] at hstep
  obtain ⟨body, hwellFormed, -⟩ := instrumented_of_reachable wellFormed_twoLines hreachable
  exact ⟨_, hreachable, rfl, body, hwellFormed⟩

end Tripwire
