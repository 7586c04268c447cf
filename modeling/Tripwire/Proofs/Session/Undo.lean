import Tripwire.Proofs.Session.Requests
import Tripwire.Proofs.Splice.Undo

/-!
# Setting a breakpoint and clearing it at once

A breakpoint that has just been set can be cleared, which gives back the stack
budget. The code comes back too, with its line table, unless the jumps that the
call has widened keep each other wide.

* `Carries.lines_eq`: the code and the fronts determine the line table;
* `exists_nearest_of_insert`, `exists_widest_of_insert`: the code with the call and without it;
* `exists_remove_of_insert`: the breakpoint can be cleared, and when the code comes back;
* `exists_restored_of_within`: it comes back when the call widens no jump.
-/

namespace Tripwire

/-- Functions with the same code and the same fronts have the same line table. -/
theorem Carries.lines_eq {f fn fn' : Function} {b body body' : Block} {front : Nat → Block}
    (hf : f.WellFormed b) (h : Carries f b front body fn) (h' : Carries f b front body' fn')
    (hcode : fn'.code = fn.code) : fn'.lines = fn.lines := by
  obtain ⟨g, -, hlines, hg⟩ := h.lines
  obtain ⟨g', -, hlines', hg'⟩ := h'.lines
  have hweave : weave front 0 body' = weave front 0 body := by
    have hdecode := h'.decode_eq
    rw [hcode, h.decode_eq] at hdecode
    exact (Except.ok.inj hdecode).symm
  have hcuts : ∀ q ∈ f.lines.cuts, g' q = g q := by
    intro q hq
    obtain ⟨m, hm, rfl⟩ := hf.aligned.cuts q hq
    rw [hg m hm, hg' m hm, hweave]
  rw [hlines, hlines', LineTable.recut_congr hcuts]

/-- One front, and no other. -/
def lone (m : Nat) (call : Block) : Nat → Block := Function.update (fun _ => []) m call

section Lone

variable {m j : Nat} {call : Block}

theorem lone_self (m : Nat) (call : Block) : lone m call m = call := Function.update_self ..

theorem lone_of_ne (hj : j ≠ m) : lone m call j = [] := Function.update_of_ne hj ..

theorem frontIndex_lone (m : Nat) (call : Block) : frontIndex (lone m call) m = m := by
  rw [frontIndex_of_le (fun j hj => lone_of_ne hj) le_rfl, frontIndex_empty]

theorem isJump_of_mem_lone (hcall : ∀ i ∈ call, i.flow.isJump = false) :
    ∀ j, ∀ i ∈ lone m call j, i.flow.isJump = false := by
  intro j i hi
  by_cases hj : j = m
  · rw [hj, lone_self] at hi
    exact hcall i hi
  · rw [lone_of_ne hj] at hi
    cases hi

end Lone

section Undo

variable {inj inj' : Injector} {f f' : Function} {b : Block} {line id : Nat}

/-- A function in which a breakpoint has been set is no smaller than before. -/
theorem small_of_insert (hok : inj.insert f line id = .ok (inj', f')) (hsmall : f'.Small) :
    f.Small := by
  obtain ⟨offset, e, lines, -, -, hinsert, -, -, -, -, rfl⟩ := Injector.insert_eq_ok_iff.1 hok
  have hadd := inj.addable_callFor f id
  have hcode := length_le_of_insertAt hadd.encodable (inj.size_callFor_pos f id) hinsert
  have hnames := (Pool.isPrefix_merge f.names inj.callNames).length_le
  have hconstants := (Pool.isPrefix_merge f.constants [Constant.int id]).length_le
  exact ⟨hcode.trans_lt hsmall.code_lt, hnames.trans_lt hsmall.names_lt,
    hconstants.trans_lt hsmall.constants_lt⟩

/-- The function in which a first breakpoint has been set. -/
theorem exists_lone_of_insert (hf : f.WellFormed b) (hsmall : f'.Small)
    (hok : inj.insert f line id = .ok (inj', f')) : ∃ m body, m < b.length ∧
      f.offsetOfLine line = .ok (b.start m) ∧ Carries f b (lone m (inj.callFor f id)) body f' := by
  obtain ⟨m, hm, hline, hinsert⟩ := (Carries.refl hf).insert hf hf.small hsmall hok
  obtain ⟨body, hset⟩ := hinsert (lone m (inj.callFor f id)) (by rw [lone_self, List.append_nil])
    (fun j hj => lone_of_ne hj) (isJump_of_mem_lone fun i hi => Injector.isJump_of_mem_callFor hi)
  exact ⟨m, body, hm, hline, hset⟩

theorem stands_of_insert (m : Nat) (hok : inj.insert f line id = .ok (inj', f')) :
    inj'.callFor f' id = inj.callFor f id ∧
      Stands inj' f' (lone m (inj.callFor f id)) m id [] [] := by
  obtain ⟨-, e, lines, -, -, -, -, -, htarget, -, hf'⟩ := Injector.insert_eq_ok_iff.1 hok
  have hnames : f'.names = Pool.merge f.names inj.callNames := by rw [hf']
  have hconstants : f'.constants = Pool.merge f.constants [.int id] := by rw [hf']
  obtain ⟨hpooled, hcall⟩ := Injector.callFor_merged htarget hnames hconstants
  refine ⟨hcall, by simp, fun a ha => ?_, ?_⟩
  · rcases ha with rfl | ha
    · exact htarget ▸ hpooled
    · cases ha
  · rw [lone_self, hcall, List.flatMap_nil, List.nil_append, List.append_nil]

/-- The code with the call of a first breakpoint. -/
theorem exists_nearest_of_insert (hf : f.WellFormed b)
    (hok : inj.insert f line id = .ok (inj', f')) {m : Nat} (hm : m < b.length)
    (hline : f.offsetOfLine line = .ok (b.start m)) : ∃ w shifts,
      Block.decode f'.code = .ok w ∧ f'.code = w.encode ∧ (b.Tight → w.Tight) ∧
      b.Spliced m 0 (inj.callFor f id) w shifts ∧
      Block.Nearest true b m 0 (inj.callFor f id) w := by
  obtain ⟨offset, e, lines, -, hoffset, hinsert, -, -, -, -, rfl⟩ := Injector.insert_eq_ok_iff.1 hok
  rw [hline] at hoffset
  cases hoffset
  obtain ⟨w, hw, hcode, htight, hspliced, hnear⟩ := exists_nearest_of_insertAt hf.decode_eq
    hf.valid (inj.addable_callFor f id) (inj.size_callFor_pos f id) hm hinsert
  exact ⟨w, e.shifts, hw, hcode, htight, hspliced, hnear⟩

/-- The code after the breakpoint has been cleared again. -/
theorem exists_nearest_of_remove {f'' : Function} {inj'' : Injector} {w : Block} {m : Nat}
    (hf : f.WellFormed b) (hm : m < b.length) (hline : f.offsetOfLine line = .ok (b.start m))
    (hsmall : f'.Small) {call body : Block} (hset : Carries f b (lone m call) body f')
    (hs : Stands inj' f' (lone m call) m id [] []) (hw : Block.decode f'.code = .ok w)
    (htight : w.Tight) (hok : inj'.remove f' line id = .ok (inj'', f'')) : ∃ r shifts,
      Block.decode f''.code = .ok r ∧ f''.code = r.encode ∧
      w.Spliced m callLength [] r shifts ∧ Block.Nearest false w m callLength [] r := by
  obtain ⟨bp, offset, w', start, e, lines, -, hoffset, hw', hlocate, hremove, -, -, -, -, rfl⟩ :=
    Injector.remove_eq_ok_iff.1 hok
  rw [Block.ofCode_eq_ok_iff, hset.decode_eq] at hw'
  obtain ⟨heq, -⟩ := hw'
  cases heq
  rw [hset.decode_eq] at hw
  cases hw
  rw [(hset.offsetOfLine_eq hf hsmall.code_lt).2 ⟨m, hm, hline, rfl⟩] at hoffset
  cases hoffset
  rw [hset.locateCall_eq hsmall hm hs] at hlocate
  cases hlocate
  have hindex : callIndex inj' f' (lone m call) m [] = m := by
    rw [callIndex, frontIndex_lone]
    rfl
  have hlt := hset.callIndex_add_le hm hs
  rw [hindex] at hlt hremove
  obtain ⟨r, hr, hcode, -, -, -, hspliced, hnear⟩ :=
    exists_nearest_of_removeAt hset.decode_eq hset.valid htight (by omega) hremove
  exact ⟨r, e.shifts, hr, hcode, hspliced, hnear⟩

/-- A breakpoint that has just been set can be cleared. What comes back is the function without
fronts, whose code is the widest tight layout that is nowhere wider than the code with the call. -/
theorem exists_widest_of_insert (hf : f.WellFormed b) (htight : b.Tight)
    (hok : inj.insert f line id = .ok (inj', f')) (hsmall : f'.Small) {m : Nat} {w : Block}
    (hm : m < b.length) (hline : f.offsetOfLine line = .ok (b.start m))
    (hw : Block.decode f'.code = .ok w) :
    ∃ inj'' f'' r, inj'.remove f' line id = .ok (inj'', f'') ∧ f''.stackDepth = f.stackDepth ∧
      Carries f b (fun _ => []) r f'' ∧ Block.Widest b (w.spliced m callLength []) r := by
  obtain ⟨m', body, hm', hline', hset⟩ := exists_lone_of_insert hf hsmall hok
  rw [hline] at hline'
  obtain rfl := Block.start_inj hf.valid.solid hm.le hm'.le (Except.ok.inj hline')
  obtain ⟨hcall, hs⟩ := stands_of_insert m hok
  obtain ⟨w', shifts, hw', -, hwtight, hspliced, -⟩ := exists_nearest_of_insert hf hok hm hline
  rw [hw] at hw'
  cases hw'
  have hjumps : ∀ i ∈ inj.callFor f id, i.flow.isJump = false := fun i hi =>
    Injector.isJump_of_mem_callFor hi
  obtain ⟨-, e, lines, -, -, -, -, -, -, hactive, hf'⟩ := Injector.insert_eq_ok_iff.1 hok
  have hdepth : f'.stackDepth = f.stackDepth + (inj.callFor f id).stackGrowth := by rw [hf']
  have hget : inj'.registry.get? id =
      some ⟨id, line, (inj.callFor f id).size, (inj.callFor f id).stackGrowth⟩ := by
    rw [Registry.get?_eq_some_iff, hactive, mem_insertById]
    exact ⟨.inl rfl, rfl⟩
  obtain ⟨⟨inj'', f''⟩, hremove⟩ := hset.exists_remove hf hsmall hm hline hs
    (isJump_of_mem_lone hjumps) hget (by rw [hcall]) (by rw [hdepth]; exact Nat.le_add_left _ _)
  obtain ⟨r, shifts', hr, -, hundo, hnear⟩ :=
    exists_nearest_of_remove hf hm hline hsmall hset hs hw (hwtight htight) hremove
  obtain ⟨body'', hclear⟩ : ∃ body'', Carries f b (fun _ => []) body'' f'' :=
    hset.remove hf hsmall hm hline hs rfl (fun j hj => (lone_of_ne hj).symm) (by simp) hremove
  have hdecode := hclear.decode_eq
  rw [weave_empty, hr] at hdecode
  cases hdecode
  refine ⟨inj'', f'', r, hremove, ?_, hclear, Block.widest_of_undo hf.valid
    (inj.addable_callFor f id) hm.le hspliced hundo.valid.encodable hnear⟩
  obtain ⟨bp, _, _, _, e, lines, hbp, -, -, -, -, -, -, -, -, hf''⟩ :=
    Injector.remove_eq_ok_iff.1 hremove
  rw [hget] at hbp
  cases hbp
  rw [hf'']
  show f'.stackDepth - _ = _
  rw [hdepth, Nat.add_sub_cancel]

/-- A breakpoint that has just been set can be cleared. The code comes back exactly when it is as
wide as every tight layout of its instructions that is nowhere wider than the code with the call,
and the line table comes back with it. -/
theorem exists_remove_of_insert (hf : f.WellFormed b) (htight : b.Tight)
    (hok : inj.insert f line id = .ok (inj', f')) (hsmall : f'.Small) :
    ∃ k w inj'' f'', k < b.length ∧ f.offsetOfLine line = .ok (b.start k) ∧
      Block.decode f'.code = .ok w ∧ inj'.remove f' line id = .ok (inj'', f'') ∧
      f''.stackDepth = f.stackDepth ∧ (f''.code = f.code → f''.lines = f.lines) ∧
      (f''.code = f.code ↔
        ∀ c, Relaid b c → Within (w.spliced k callLength []) c → Within b c) := by
  obtain ⟨m, -, hm, hline, -⟩ := exists_lone_of_insert hf hsmall hok
  obtain ⟨w, -, hw, -, -, -, hnear⟩ := exists_nearest_of_insert hf hok hm hline
  obtain ⟨inj'', f'', r, hremove, hdepth, hclear, hwidest⟩ :=
    exists_widest_of_insert hf htight hok hsmall hm hline hw
  have hr := hclear.decode_eq
  rw [weave_empty] at hr
  -- The bytes come back exactly when the instructions do, as both are read back.
  have hback : f''.code = f.code ↔ r = b := by
    constructor
    · intro heq
      rw [heq, hf.decode_eq] at hr
      exact (Except.ok.inj hr).symm
    · rintro rfl
      rw [← Block.encode_of_decode hr, Block.encode_of_decode hf.decode_eq]
  refine ⟨m, w, inj'', f'', hm, hline, hw, hremove, hdepth, fun heq => ?_, ?_⟩
  · obtain rfl := hback.1 heq
    exact (Carries.refl hf).lines_eq hf hclear heq
  · rw [hback]
    exact hwidest.eq_iff hf.valid htight (hnear.laid.within hm.le)

/-- A breakpoint whose call widens no jump can be cleared without a trace in the code. -/
theorem exists_restored_of_within (hf : f.WellFormed b) (htight : b.Tight)
    (hok : inj.insert f line id = .ok (inj', f')) (hsmall : f'.Small) {w : Block} {k : Nat}
    (hw : Block.decode f'.code = .ok w) (hk : k < b.length)
    (hline : f.offsetOfLine line = .ok (b.start k))
    (hkeeps : Within b (w.spliced k callLength [])) : ∃ inj'' f'',
      inj'.remove f' line id = .ok (inj'', f'') ∧ f''.code = f.code ∧ f''.lines = f.lines ∧
        f''.stackDepth = f.stackDepth := by
  obtain ⟨k', w', inj'', f'', hk', hline', hw', hremove, hdepth, hlines, hiff⟩ :=
    exists_remove_of_insert hf htight hok hsmall
  rw [hw] at hw'
  rw [hline] at hline'
  cases hw'
  obtain rfl : k = k' := Block.start_inj hf.valid.solid hk.le hk'.le (Except.ok.inj hline')
  have hcode : f''.code = f.code := hiff.2 fun c _ hwithin => hkeeps.trans hwithin
  exact ⟨inj'', f'', hremove, hcode, hlines hcode, hdepth⟩

end Undo

end Tripwire
