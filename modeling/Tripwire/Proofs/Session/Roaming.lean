import Tripwire.Proofs.Session.Recognition

/-!
# Clearing at any line

A request to clear a breakpoint can name any line. When it is granted, the call of
the breakpoint is taken out from where it was put in, unless the program itself
calls the callback with the same number: a call of the program is taken for that of
the breakpoint.

* `Function.CallsItself`: the program calls the callback with a number;
* `Session.Takes`: what a granted request takes out of the code;
* `Roams`: the sessions in which requests name any lines;
* `reachable_of_roams`: they get nowhere else than those that name the right lines;
* `takes_of_roams`: what is taken out in them;
* `exists_takes_own`: a program that loses its own call.
-/

namespace Tripwire

/-- The program itself calls the callback with the number `id`. -/
def Function.CallsItself (f : Function) (target : CallTarget) (b : Block) (id : Nat) : Prop :=
  ∃ m, f.Calls target (.int id) (b.drop m)

/-- What a granted request does depends on the line only by the call that it leads to. -/
theorem Injector.remove_congr {inj : Injector} {f : Function} {p : Injector × Function} {w : Block}
    {line line' offset offset' start id : Nat} (hw : Block.decode f.code = .ok w)
    (hline : f.offsetOfLine line = .ok offset) (hline' : f.offsetOfLine line' = .ok offset')
    (hlocate : inj.locateCall f w offset line id = .ok start)
    (hlocate' : inj.locateCall f w offset' line' id = .ok start)
    (hok : inj.remove f line id = .ok p) : inj.remove f line' id = .ok p := by
  obtain ⟨bp, q, w', found, e, lines, hget, hq, hw', hfound, hremove, hsize, hlines, hdepth, hinj,
    hfn⟩ := Injector.remove_eq_ok_iff.1 hok
  rw [hline] at hq
  cases hq
  have hdecode := Block.ofCode_eq_ok_iff.1 hw'
  rw [hw] at hdecode
  cases hdecode.1
  rw [hlocate] at hfound
  cases hfound
  exact Injector.remove_eq_ok_iff.2 ⟨bp, offset', w, start, e, lines, hget, hline', hw', hlocate',
    hremove, hsize, hlines, hdepth, hinj, hfn⟩

namespace Session

/-- A request to clear a breakpoint with whose number the program calls the callback itself names
the line at which the breakpoint was set. -/
def Tells (s : Session) (target : CallTarget) (f : Function) (b : Block) : Request → Prop
  | .insert _ _ => True
  | .remove line id => f.CallsItself target b id → s.Admits (.remove line id)

/-- What a granted request to clear the breakpoint `id` takes out of the code at the index `l`: the
call of the breakpoint, from the front of the instruction of number `m`, or from there on a call of
the program. -/
inductive Takes (s : Session) (target : CallTarget) (f : Function) (b : Block) (line id m l : Nat)
    (removed : Block) : Prop
  /-- The call stands where the latest request for the number put it, behind the calls of those that
  came later, and a request that names the line of that request does the same. -/
  | call {k : Mark} {r : Nat} : (marksAt f b s.marks m)[r]? = some k → k.id = id →
      l = frontIndex (s.front f b) m + r * callLength → removed = s.call id →
      s.injector.remove s.function k.line id = s.injector.remove s.function line id →
      Takes s target f b line id m l removed
  /-- The program calls the callback with the number of the breakpoint. -/
  | own : l = placeIndex (s.front f b) m → f.Calls target (.int id) (b.drop m) →
      removed = (b.drop m).take callLength → Takes s target f b line id m l removed

end Session

namespace Kept

variable {target : CallTarget} {f fn' : Function} {b body : Block} {s : Session} {inj' : Injector}
  {line id m r : Nat} {k : Mark}

/-- The call of a breakpoint stands in its front at the place that it has among the breakpoints
there. -/
theorem exists_stands_of_getElem? (h : Kept target f b s)
    (hk : (marksAt f b s.marks m)[r]? = some k) :
    f.offsetOfLine k.line = .ok (b.start m) ∧ ∃ ids after,
      Stands s.injector s.function (s.front f b) m k.id ids after ∧
        callIndex s.injector s.function (s.front f b) m ids =
          frontIndex (s.front f b) m + r * callLength := by
  obtain ⟨hmem, hline⟩ := mem_marksAt.1 (List.mem_of_getElem? hk)
  obtain ⟨before, after, hmarks, -, hother⟩ := h.exists_split hmem
  refine ⟨hline, _, _, h.stands hmarks hother hline, ?_⟩
  have hsplit : marksAt f b s.marks m = marksAt f b before m ++ k :: marksAt f b after m := by
    rw [hmarks, marksAt, List.filter_append,
      List.filter_cons_of_pos (by simp [hline, Except.toOption])]
    rfl
  have hplace : (marksAt f b s.marks m)[(marksAt f b before m).length]? = some k := by
    rw [hsplit, List.getElem?_append_right le_rfl, Nat.sub_self]
    rfl
  have hnodup : (marksAt f b s.marks m).Nodup := h.nodup.of_map.filter _
  have hlt : r < (marksAt f b s.marks m).length := (List.getElem?_eq_some_iff.1 hk).1
  obtain rfl : r = (marksAt f b before m).length :=
    (List.getElem?_inj hlt hnodup).1 (hk.trans hplace.symm)
  rw [callIndex, List.flatMap_map, length_flatMap_call fun id => Injector.length_callFor _ _ id]

/-- A request that is granted for the call of a breakpoint is granted at the line of the breakpoint
too, with the same result. -/
theorem remove_at_own_line (hf : f.WellFormed b) (h : Kept target f b s)
    (hcarries : Carries f b (s.front f b) body s.function) {offset : Nat} (hm : m < b.length)
    (hk : (marksAt f b s.marks m)[r]? = some k) (hline : s.function.offsetOfLine line = .ok offset)
    (hlocate : s.injector.locateCall s.function (weave (s.front f b) 0 body) offset line k.id =
      .ok (Block.start (weave (s.front f b) 0 body)
        (frontIndex (s.front f b) m + r * callLength)))
    (hok : s.injector.remove s.function line k.id = .ok (inj', fn')) :
    s.injector.remove s.function k.line k.id = .ok (inj', fn') := by
  obtain ⟨hown, ids, after, hstands, hindex⟩ := h.exists_stands_of_getElem? hk
  have hlocate' : s.injector.locateCall s.function (weave (s.front f b) 0 body)
      (Block.start (weave (s.front f b) 0 body) (frontIndex (s.front f b) m)) k.line k.id =
        .ok (Block.start (weave (s.front f b) 0 body)
          (frontIndex (s.front f b) m + r * callLength)) :=
    hindex ▸ hcarries.locateCall_eq h.small hm hstands
  exact Injector.remove_congr hcarries.decode_eq hline
    ((hcarries.offsetOfLine_eq hf h.small.code_lt).2 ⟨m, hm, hown, rfl⟩) hlocate hlocate' hok

/-- A granted request to clear a breakpoint takes out its call, or a call of the program that is
taken for it. The line leads there, past nothing but calls. -/
theorem exists_takes_of_remove (hf : f.WellFormed b) (h : Kept target f b s) (hbacked : f.Backed b)
    (hcarries : Carries f b (s.front f b) body s.function)
    (hok : s.injector.remove s.function line id = .ok (inj', fn')) : ∃ m₀ m l e,
      m₀ < b.length ∧ f.offsetOfLine line = .ok (b.start m₀) ∧ f.Bridged target b m₀ m ∧
      m < b.length ∧
      removeAt s.function.code (Block.start (weave (s.front f b) 0 body) l) callLength = .ok e ∧
      fn'.code = e.code ∧ s.Takes target f b line id m l e.removed := by
  obtain ⟨m₀, m, r, e, hm₀, hline, hbridged, hm, hlocate, hremove, hcode, hfound⟩ :=
    h.exists_of_remove hf hbacked hcarries hok
  refine ⟨m₀, m, _, e, hm₀, hline, hbridged, hm, hremove, hcode, ?_⟩
  obtain ⟨k, hk, rfl⟩ | ⟨rfl, hcalls, htake⟩ := hfound
  · obtain ⟨-, ids, after, hstands, hindex⟩ := h.exists_stands_of_getElem? hk
    have hown := h.remove_at_own_line hf hcarries hm hk
      ((hcarries.offsetOfLine_eq hf h.small.code_lt).2 ⟨m₀, hm₀, hline, rfl⟩) hlocate hok
    rw [← hindex] at hremove
    obtain ⟨-, -, -, -, hremoved, -⟩ := hcarries.removal hf h.small hm hstands hremove
    exact .call hk rfl rfl hremoved (hown.trans hok.symm)
  · have hplace : frontIndex (s.front f b) m + (marksAt f b s.marks m).length * callLength =
        placeIndex (s.front f b) m := by
      rw [placeIndex, s.length_front]
    rw [hplace] at hremove htake ⊢
    refine .own rfl hcalls ?_
    rw [removed_of_removeAt hcarries.decode_eq hcarries.valid (hcarries.placeIndex_lt hm).le hremove,
      htake]

end Kept

/-- The sessions on a function in which requests to clear breakpoints name any lines, but for the
numbers with which the program calls the callback itself. -/
inductive Roams (target : CallTarget) (f : Function) (b : Block) : Session → Prop
  | start : Roams target f b (.start target f)
  | after {s : Session} (r : Request) : Roams target f b s → s.Tells target f b r →
      (s.after r).function.Small → Roams target f b (s.after r)

/-- A request that names another line gets nowhere else than one that names the line of the
breakpoint. -/
theorem Reachable.after_of_tells {target : CallTarget} {f : Function} {b : Block} {s : Session}
    {r : Request} (hf : f.WellFormed b) (hbacked : f.Backed b) (h : Reachable target f s)
    (htells : s.Tells target f b r) (hsmall : (s.after r).function.Small) :
    Reachable target f (s.after r) := by
  cases hrun : r.run s.injector s.function with
  | error fault =>
    rw [Session.after_of_error hrun]
    exact h
  | ok p =>
    obtain ⟨inj', fn'⟩ := p
    cases r with
    | insert line id => exact h.after _ trivial hsmall
    | remove line id =>
      by_cases hadmits : s.Admits (.remove line id)
      · exact h.after _ hadmits hsmall
      · have hkept := kept_of_reachable hf h
        obtain ⟨body, hcarries⟩ := hkept.carries
        obtain ⟨-, m, l, e, -, -, -, -, -, -, htakes⟩ :=
          hkept.exists_takes_of_remove hf hbacked hcarries hrun
        cases htakes with
        | @call k r hk hid _ _ hsame =>
          have hmem : k ∈ s.marks := (mem_marksAt.1 (List.mem_of_getElem? hk)).1
          have hown : Request.run s.injector s.function (.remove k.line id) = .ok (inj', fn') :=
            hsame.trans hrun
          have hafter : s.after (.remove line id) = s.after (.remove k.line id) := by
            rw [Session.after_of_ok hrun, Session.after_of_ok hown]
            rfl
          rw [hafter] at hsmall ⊢
          refine h.after _ (fun k' hk' hid' => ?_) hsmall
          rw [List.inj_on_of_nodup_map hkept.nodup hk' hmem (hid'.trans hid.symm)]
        | own _ hcalls _ => exact absurd (htells ⟨m, hcalls⟩) hadmits

theorem reachable_of_roams {target : CallTarget} {f : Function} {b : Block} {s : Session}
    (hf : f.WellFormed b) (hbacked : f.Backed b) (h : Roams target f b s) : Reachable target f s := by
  induction h with
  | start => exact .start
  | after r _ htells hsmall ih => exact ih.after_of_tells hf hbacked htells hsmall

/-- In a function that suspends nothing is set. -/
theorem eq_start_of_roams {target : CallTarget} {f : Function} {b : Block} {s : Session}
    (hsuspends : ∀ w, Block.ofCode f.code ≠ .ok w) (h : Roams target f b s) :
    s = .start target f := by
  induction h with
  | start => rfl
  | @after s r _ _ _ ih =>
    subst ih
    cases hrun : r.run (.start target) f with
    | error fault => exact Session.after_of_error hrun
    | ok p =>
      cases r with
      | insert line id =>
        obtain ⟨_, e, _, -, -, hinsert, -⟩ := Injector.insert_eq_ok_iff.1 hrun
        obtain ⟨w, _, hw, -⟩ := insertAt_eq_ok_iff.1 hinsert
        exact absurd hw (hsuspends w)
      | remove line id =>
        obtain ⟨_, _, w, _, _, _, -, -, hw, -⟩ := Injector.remove_eq_ok_iff.1 hrun
        exact absurd hw (hsuspends w)

/-- What is taken out of the code of an assembled function when a request to clear a breakpoint is
granted, whatever line it names: the call that the latest request for the number put in, or a call of
the program with that number. The line leads there, past nothing but calls of breakpoints and of the
program. -/
theorem takes_of_roams {source : List Char} {target : CallTarget} {f fn' : Function} {b : Block}
    {s : Session} {inj' : Injector} {line id : Nat} (hassemble : assemble source = .ok f)
    (hsmall : f.Small) (hb : Block.decode f.code = .ok b) (h : Roams target f b s)
    (hok : s.injector.remove s.function line id = .ok (inj', fn')) : ∃ body,
      Block.decode s.function.code = .ok (weave (s.front f b) 0 body) ∧
      List.Forall₂ Instruction.Resized b body ∧ ∃ m₀ m l e, m₀ < b.length ∧
      f.offsetOfLine line = .ok (b.start m₀) ∧ f.Bridged target b m₀ m ∧ m < b.length ∧
      removeAt s.function.code (Block.start (weave (s.front f b) 0 body) l) callLength = .ok e ∧
      fn'.code = e.code ∧ s.Takes target f b line id m l e.removed := by
  obtain ⟨b', hb', -, hwell⟩ := wellFormed_of_assemble hassemble hsmall
  rw [hb] at hb'
  cases hb'
  by_cases hsteady : ∀ i ∈ b, i.flow ≠ .suspension
  · have hf := hwell hsteady
    have hbacked := backed_of_assemble hassemble hsmall hb
    have hkept := kept_of_reachable hf (reachable_of_roams hf hbacked h)
    obtain ⟨body, hcarries⟩ := hkept.carries
    exact ⟨body, hcarries.decode_eq, hcarries.resized,
      hkept.exists_takes_of_remove hf hbacked hcarries hok⟩
  · have hsuspends : ∀ w, Block.ofCode f.code ≠ .ok w := by
      intro w hw
      obtain ⟨hw, hsteady'⟩ := Block.ofCode_eq_ok_iff.1 hw
      rw [hb] at hw
      cases hw
      exact hsteady hsteady'
    rw [eq_start_of_roams hsuspends h] at hok
    obtain ⟨_, _, w, _, _, _, -, -, hw, -⟩ := Injector.remove_eq_ok_iff.1 hok
    exact absurd hw (hsuspends w)

/-! ### A program that loses its own call -/

/-- An idle instruction and a call of the callback, with nothing to return. -/
def Block.ownCall : Block :=
  .bare .nop :: (callBlock 0 1 0 ++ [.bare .nop, .bare .returnValue])

/-- Source text of a program that calls the callback itself, with the number 7. -/
def ownCallSource : List Char :=
  (".line 1\nnop\n.line 2\nload_global linehook\nload_method breakpoint_callback\nload_const 7\n" ++
    "call_method 1\npop_top\nnop\n.line 3\nreturn_value\n").toList

/-- The function of that text. -/
def Function.ownCall : Function where
  name := "<asm>"
  code := Block.ownCall.encode
  constants := [.int 7]
  names := ["linehook", "breakpoint_callback"]
  lines := .ofSpans 1 [(2, some 1), (12, some 2), (2, some 3)]
  stackDepth := 3

/-- The function with a breakpoint of the same number on its first line. -/
def Function.ownCallSet : Function :=
  { Function.ownCall with
    code := (callBlock 0 1 0 ++ Block.ownCall).encode
    lines := .ofSpans 1 [(12, some 1), (12, some 2), (2, some 3)]
    stackDepth := 6 }

theorem assemble_ownCallSource : assemble ownCallSource = .ok .ownCall := by decide +kernel

theorem decode_ownCall : Block.decode Function.ownCall.code = .ok .ownCall :=
  Block.decode_encode (by decide)

theorem small_ownCall : Function.ownCall.Small := ⟨by decide, by decide, by decide⟩

theorem wellFormed_ownCall : Function.ownCall.WellFormed .ownCall := by
  obtain ⟨b, hb, -, hwell⟩ := wellFormed_of_assemble assemble_ownCallSource small_ownCall
  rw [decode_ownCall] at hb
  cases hb
  exact hwell (by decide)

theorem exists_insert_ownCall : ∃ inj,
    (Injector.start .standard).insert .ownCall 1 7 = .ok (inj, .ownCallSet) ∧
      inj.target = .standard ∧ inj.registry.get? 7 = some ⟨7, 1, 10, 3⟩ := by
  have hinsert : insertAt Function.ownCall.code (callBlock 0 1 0) 0 = .ok
      ⟨(callBlock 0 1 0 ++ Block.ownCall).encode, [.before 0 10], []⟩ :=
    insertAt_eq_ok_iff.2 ⟨_, _, Block.ofCode_eq_ok_iff.2
      ⟨decode_ownCall, wellFormed_ownCall.valid.steady⟩,
      (Block.draftInsert_eq_ok_iff wellFormed_ownCall.valid.solid).2 ⟨0, by decide, rfl, by decide, by decide, rfl⟩,
      Block.finish_eq_ok_iff.2 ⟨_, rfl, rfl, by decide, rfl, rfl⟩⟩
  have hlines : Function.ownCall.lines.followed [.before 0 10] = .ok Function.ownCallSet.lines := by
    rw [LineTable.followed, LineTable.follow, LineTable.fallingOrder, List.mergeSort_singleton]
    rfl
  exact ⟨⟨.standard, ⟨[⟨7, 1, _, _⟩], List.pairwise_singleton ..⟩⟩,
    Injector.insert_eq_ok_iff.2 ⟨0, _, _, rfl, rfl, hinsert, hlines, by decide, rfl, rfl, rfl⟩, rfl,
    rfl⟩

/-- A request that names the second line finds the call of the program there. -/
theorem exists_remove_ownCall {inj : Injector} (htarget : inj.target = .standard)
    (hactive : inj.registry.get? 7 = some ⟨7, 1, 10, 3⟩) : ∃ inj' f,
      inj.remove .ownCallSet 2 7 = .ok (inj', f) ∧
        f.code = Block.encode (callBlock 0 1 0 ++ [.bare .nop, .bare .nop, .bare .returnValue]) := by
  have hdecode : Block.decode Function.ownCallSet.code = .ok (callBlock 0 1 0 ++ Block.ownCall) :=
    Block.decode_encode (by decide)
  have hvalid : Block.Valid (callBlock 0 1 0 ++ Block.ownCall) :=
    ⟨Block.encodable_of_decode hdecode, by decide, by decide⟩
  have hjumps : ∀ i ∈ callBlock 0 1 0 ++ Block.ownCall, i.flow.isJump = false := by decide
  have hspares : Block.Spares (callBlock 0 1 0 ++ Block.ownCall) 6 callLength := by
    rintro j l - ⟨-, i, hi, hjump, -⟩
    rw [hjumps i (List.mem_of_getElem? hi)] at hjump
    cases hjump
  have hlocate : inj.locateCall .ownCallSet (callBlock 0 1 0 ++ Block.ownCall) 12 2 7 = .ok 12 := by
    rw [Injector.locateCall_eq_ok_iff hvalid.solid, htarget]
    exact ⟨6, by decide, rfl, by decide, by decide, rfl⟩
  have hremove : removeAt Function.ownCallSet.code 12 callLength = .ok
      ⟨Block.encode (callBlock 0 1 0 ++ [.bare .nop, .bare .nop, .bare .returnValue]),
        [.before 22 (-10)], callBlock 0 1 0⟩ :=
    removeAt_eq_ok_iff.2 ⟨_, _, Block.ofCode_eq_ok_iff.2 ⟨hdecode, hvalid.steady⟩,
      (Block.draftRemove_eq_ok_iff hvalid).2 ⟨6, by decide, rfl, by decide, by decide, hspares, rfl⟩,
      Block.finish_eq_ok_iff.2 ⟨_, rfl, rfl, by decide, rfl, rfl⟩⟩
  have hlines : Function.ownCallSet.lines.followed [.before 22 (-10)] =
      .ok (.ofSpans 1 [(12, some 1), (2, some 2), (2, some 3)]) := by
    rw [LineTable.followed, LineTable.follow, LineTable.fallingOrder, List.mergeSort_singleton]
    rfl
  exact ⟨_, _, Injector.remove_eq_ok_iff.2 ⟨_, 12, _, 12, _, _, hactive, rfl,
    Block.ofCode_eq_ok_iff.2 ⟨hdecode, hvalid.steady⟩, hlocate, hremove, rfl, hlines, by decide, rfl,
    rfl⟩, rfl⟩

theorem small_ownCallSet : Function.ownCallSet.Small := ⟨by decide, by decide, by decide⟩

/-- The program loses its call, and the call that the breakpoint put in stays. -/
theorem exists_takes_own : ∃ s inj f e, Roams .standard .ownCall .ownCall s ∧
    s.marks = [⟨7, 1⟩] ∧ s.injector.remove s.function 2 7 = .ok (inj, f) ∧
    s.Takes .standard .ownCall .ownCall 2 7 1 6 e ∧ e = (Block.ownCall.drop 1).take callLength ∧
    f.code = Block.encode (callBlock 0 1 0 ++ [.bare .nop, .bare .nop, .bare .returnValue]) := by
  obtain ⟨inj, hinsert, htarget, hactive⟩ := exists_insert_ownCall
  obtain ⟨inj', f, hremove, hcode⟩ := exists_remove_ownCall htarget hactive
  have hafter : (Session.start .standard .ownCall).after (.insert 1 7) =
      ⟨inj, .ownCallSet, [⟨7, 1⟩]⟩ := Session.after_of_ok hinsert
  have hroams : Roams .standard .ownCall .ownCall ⟨inj, .ownCallSet, [⟨7, 1⟩]⟩ := by
    rw [← hafter]
    refine Roams.start.after (.insert 1 7) trivial ?_
    rw [hafter]
    exact small_ownCallSet
  obtain ⟨body, -, -, m₀, m, l, e, hm₀, hline, hbridged, hm, -, -, htakes⟩ :=
    takes_of_roams assemble_ownCallSource small_ownCall decode_ownCall hroams hremove
  have hsolid := wellFormed_ownCall.valid.solid
  have hsecond : Function.ownCall.offsetOfLine 2 = .ok (Block.start .ownCall 1) := rfl
  rw [hsecond] at hline
  obtain rfl : 1 = m₀ := Block.start_inj hsolid (by decide) hm₀.le (Except.ok.inj hline)
  cases htakes with
  | @call k r hk =>
    -- The breakpoint stands on the first line, and the second leads to nothing in front of it.
    obtain ⟨hmem, hresolves⟩ := mem_marksAt.1 (List.mem_of_getElem? hk)
    obtain rfl := List.mem_singleton.1 hmem
    have hfirst : Function.ownCall.offsetOfLine 1 = .ok (Block.start .ownCall 0) := rfl
    rw [hfirst] at hresolves
    obtain rfl : 0 = m := Block.start_inj hsolid (by decide) hm.le (Except.ok.inj hresolves)
    exact absurd hbridged.le (by decide)
  | own hplace hcalls hremoved =>
    have honly : ∀ m < Block.ownCall.length,
        (Block.ownCall.drop m).head?.map (·.opcode) = some .loadGlobal → m = 1 := by decide
    obtain ⟨_, _, _, -, -, -, load, method, loading, call, drop, rest, heq, hmatch⟩ := id hcalls
    obtain rfl : m = 1 := by
      refine honly m hm ?_
      rw [heq, List.head?_cons, Option.map_some, (matchCall?_eq_some_iff.1 hmatch).1.1]
    obtain rfl : l = 6 := hplace
    exact ⟨_, inj', f, _, hroams, rfl, hremove, .own rfl hcalls hremoved, hremoved, hcode⟩

end Tripwire
