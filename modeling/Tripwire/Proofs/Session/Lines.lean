import Tripwire.Proofs.LineTable.Cover
import Tripwire.Proofs.Session.Invariant

/-!
# The line table and the stack budget of a session

However breakpoints are set and cleared, the line table covers the code, every
original instruction has its line, every call has the line of the entry in front
of which it was put, and every line resolves to the entry to which it resolved at
first. The stack budget has grown by what the active breakpoints need.

* `Carries.lineAt?_eq`: the bytes from a front up to the next one have one line;
* `Carries.entryOfLine?_eq`: lines resolve to the entries to which they resolved;
* `InStep`: the line table and the stack budget of a session as they have to be;
* `inStep_of_reachable`: they are so in every session.
-/

namespace Tripwire

namespace Carries

variable {f fn : Function} {b body : Block} {front : Nat → Block} {m p line : Nat}

/-- The bytes of a front and of the instruction behind it have the line of that instruction. -/
theorem lineAt?_eq (hf : f.WellFormed b) (h : Carries f b front body fn) (hsmall : fn.Small)
    (hle : Block.start (weave front 0 body) (frontIndex front m) ≤ p)
    (hlt : p < Block.start (weave front 0 body) (frontIndex front (m + 1))) :
    fn.lines.lineAt? p = f.lines.lineAt? (b.start m) := by
  obtain ⟨g, hkeeps, hlines, hsize, hg⟩ := h.exists_recut hf hsmall.code_lt
  rw [hlines]
  apply LineTable.lineAt?_recut hkeeps hf.lines_lt hsize
  intro c hc
  obtain ⟨j, hj, rfl⟩ := hf.aligned.cuts c hc
  rw [hg j hj, Block.start_le_start_iff hf.valid.solid hj]
  constructor
  · intro hstart
    by_contra hmj
    have hnext : frontIndex front (m + 1) ≤ frontIndex front j :=
      frontIndex_le_frontIndex (Nat.lt_of_not_le hmj)
    have hmono := Block.start_mono (weave front 0 body) hnext
    omega
  · intro hjm
    exact (Block.start_mono _ (frontIndex_le_frontIndex hjm)).trans hle

/-- A line resolves to the entry to which it resolved, at the front at which the entry begins. -/
theorem entryOfLine?_eq (hf : f.WellFormed b) (h : Carries f b front body fn)
    (hsmall : fn.Small) (line : Nat) :
    (f.lines.entryOfLine? line = none → fn.lines.entryOfLine? line = none) ∧
      ∀ e, f.lines.entryOfLine? line = some e → ∃ m < b.length, e.start = b.start m ∧ ∃ e',
        fn.lines.entryOfLine? line = some e' ∧ e'.run = e.run ∧ e'.line = e.line ∧
          e'.start = Block.start (weave front 0 body) (frontIndex front m) := by
  obtain ⟨g, hkeeps, hlines, hsize, hg⟩ := h.exists_recut hf hsmall.code_lt
  have hentry := LineTable.entryOfLine?_recut hkeeps hf.lines_lt hsize line
  rw [hlines, hentry]
  constructor
  · intro hnone
    rw [hnone]
    rfl
  · intro e he
    obtain ⟨m, hm, hstart⟩ :=
      Block.mem_offsets.1 (hf.entries e (List.mem_of_find?_eq_some he))
    refine ⟨m, hm, hstart.symm, e.moved g, by rw [he]; rfl, rfl, rfl, ?_⟩
    show g e.start = _
    rw [← hstart, hg m hm.le]

end Carries

/-- The line table and the stack budget of the session are in step with its code, which is the
block `w`: the instructions of `b` with the calls in front of them. -/
structure InStep (f : Function) (b : Block) (s : Session) (w : Block) : Prop where
  size_eq : s.function.lines.size = s.function.code.length
  /-- The bytes of the original instruction of number `m` have the line that it had. -/
  original : ∀ m < b.length, ∀ p, w.start (placeIndex (s.front f b) m) ≤ p →
    p < w.start (placeIndex (s.front f b) m + 1) →
      s.function.lines.lineAt? p = f.lines.lineAt? (b.start m)
  /-- The bytes of a call have the line of the entry in front of which it was put. -/
  injected : ∀ k ∈ s.marks, ∃ e, f.lines.entryOfLine? k.line = some e ∧
    ∃ m < b.length, b.start m = e.start ∧ ∃ l, frontIndex (s.front f b) m ≤ l ∧
      l + callLength ≤ placeIndex (s.front f b) m ∧ (w.drop l).take callLength = s.call k.id ∧
        ∀ p, w.start l ≤ p → p < w.start (l + callLength) → s.function.lines.lineAt? p = e.line
  unresolved : ∀ line, f.lines.entryOfLine? line = none →
    s.function.lines.offsetOfLine line = .error (.lineNotFound line)
  /-- A line resolves to the same entry, which begins at the first call in front of it. -/
  resolved : ∀ line e, f.lines.entryOfLine? line = some e →
    ∃ m < b.length, e.start = b.start m ∧ ∃ e', s.function.lines.entryOfLine? line = some e' ∧
      e'.run = e.run ∧ e'.line = e.line ∧
        s.function.lines.offsetOfLine line = .ok (w.start (frontIndex (s.front f b) m)) ∧
        s.front f b m <+: w.drop (frontIndex (s.front f b) m)
  stackDepth_eq : s.function.stackDepth =
    f.stackDepth + (s.injector.registry.active.map Breakpoint.stackGrowth).sum

section Kept

variable {target : CallTarget} {f : Function} {b body : Block} {s : Session}

/-- The bytes of the call of a breakpoint have the line of its entry. -/
theorem Kept.lineAt?_call (hf : f.WellFormed b) (h : Kept target f b s)
    (hcarries : Carries f b (s.front f b) body s.function) {k : Mark} (hk : k ∈ s.marks) :
    ∃ e, f.lines.entryOfLine? k.line = some e ∧ ∃ m < b.length, b.start m = e.start ∧
      ∃ l, frontIndex (s.front f b) m ≤ l ∧ l + callLength ≤ placeIndex (s.front f b) m ∧
        ((weave (s.front f b) 0 body).drop l).take callLength = s.call k.id ∧
        ∀ p, Block.start (weave (s.front f b) 0 body) l ≤ p →
          p < Block.start (weave (s.front f b) 0 body) (l + callLength) →
            s.function.lines.lineAt? p = e.line := by
  obtain ⟨m, hm, hline, ids, after, hstands⟩ := h.exists_stands hk
  have hlookup : f.lines.offsetOfLine k.line = .ok (b.start m) := by
    unfold Function.offsetOfLine at hline
    split at hline
    · cases hline
    · exact hline
  obtain ⟨e, he, hstart⟩ := LineTable.offsetOfLine_eq_ok_iff.1 hlookup
  obtain ⟨rest, -, hdrop⟩ := hcarries.drop_callIndex hm hstands
  have hplace := hstands.callIndex_add_le_placeIndex
  have hfront := frontIndex_le_callIndex s.injector s.function (s.front f b) m ids
  refine ⟨e, he, m, hm, hstart.symm, _, hfront, hplace, ?_, ?_⟩
  · rw [hdrop]
    exact List.take_left' (s.injector.length_callFor s.function k.id)
  · intro p hle hlt
    have hbegin := Block.start_mono (weave (s.front f b) 0 body) hfront
    have hend := Block.start_mono (weave (s.front f b) 0 body) (hplace.trans (Nat.le_succ _))
    rw [hcarries.lineAt?_eq hf h.small (hbegin.trans hle) (hlt.trans_le hend), ← hstart,
      LineTable.lineAt?, LineTable.find?_start_of_mem_entries hf.lines_lt
        (List.mem_of_find?_eq_some he)]
    rfl

/-- The invariant of sessions keeps the line table and the stack budget in step. -/
theorem Kept.inStep (hf : f.WellFormed b) (h : Kept target f b s)
    (hcarries : Carries f b (s.front f b) body s.function) :
    InStep f b s (weave (s.front f b) 0 body) where
  size_eq := (hcarries.wellFormed hf h.small).size_eq
  original m hm p hle hlt := by
    have hbegin := Block.start_mono (weave (s.front f b) 0 body)
      (Nat.le_add_right (frontIndex (s.front f b) m) (s.front f b m).length)
    exact hcarries.lineAt?_eq hf h.small (hbegin.trans hle) hlt
  injected k hk := h.lineAt?_call hf hcarries hk
  unresolved line hnone := by
    apply LineTable.offsetOfLine_of_entryOfLine?_eq_none
    exact (hcarries.entryOfLine?_eq hf h.small line).1 hnone
  resolved line e he := by
    obtain ⟨m, hm, hstart, e', he', hrun, hline, hstart'⟩ :=
      (hcarries.entryOfLine?_eq hf h.small line).2 e he
    have hbody : m < body.length := by
      rw [← hcarries.resized.length_eq]
      exact hm
    have hdrop := drop_frontIndex_weave (s.front f b) (List.getElem?_eq_getElem hbody)
    exact ⟨m, hm, hstart, e', he', hrun, hline,
      LineTable.offsetOfLine_eq_ok_iff.2 ⟨e', he', hstart'⟩, _, hdrop.symm⟩
  stackDepth_eq := by
    have hsum := (h.active_perm.map Breakpoint.stackGrowth).sum_eq
    rw [List.map_map] at hsum
    rw [h.stackDepth_eq, hsum]
    rfl

end Kept

/-- After any requests, granted or refused, the line table covers the code. The original
instructions have the lines that they had, each call has the line of the entry in front of which it
was put, and every line resolves to the entry to which it resolved at first, now at the first call
in front of it. The stack budget is the original one with the growths of the active breakpoints. -/
theorem inStep_of_reachable {target : CallTarget} {f : Function} {b : Block} {s : Session}
    (hf : f.WellFormed b) (h : Reachable target f s) : ∃ body,
      Block.decode s.function.code = .ok (weave (s.front f b) 0 body) ∧
        List.Forall₂ Instruction.Resized b body ∧ InStep f b s (weave (s.front f b) 0 body) := by
  have hkept := kept_of_reachable hf h
  obtain ⟨body, hcarries⟩ := hkept.carries
  exact ⟨body, hcarries.decode_eq, hcarries.resized, hkept.inStep hf hcarries⟩

/-- A call in front of the second line. -/
theorem exists_inStep_twoLines : ∃ s, Reachable .standard .twoLines s ∧ s.marks = [⟨7, 2⟩] ∧
    ∃ w, InStep .twoLines [⟨.jumpAbsolute, 2, 1⟩, .bare .returnValue] s w := by
  obtain ⟨inj, fn, hok, hsmall⟩ := exists_insert_twoLines
  have hreachable : Reachable .standard .twoLines ⟨inj, fn, [⟨7, 2⟩]⟩ :=
    Reachable.start.after_of_ok (r := .insert 2 7) trivial hsmall hok
  obtain ⟨body, -, -, hstep⟩ := inStep_of_reachable wellFormed_twoLines hreachable
  exact ⟨_, hreachable, rfl, _, hstep⟩

end Tripwire
