import Tripwire.Proofs.Session.Invariant

/-!
# Requests that are granted

In every session a breakpoint can be set whenever its number is free, its line
has code behind it, the stack budget stays in range and the code with the call has
room. The breakpoints that are set can be cleared, one after another, in any order.

* `Function.exists_offsetOfLine_iff`: the lines that resolve;
* `Session.HasRoom`: the call has room in the code, with `Session.hasRoom_of_length`;
* `Session.Grants`: requests that are granted one after another;
* `Kept.exists_insert_iff`, `Kept.exists_remove`: the requests that are granted in one state;
* `progress_of_reachable`, `exists_insert_iff_of_reachable`: the requests that are granted in every
  session.
-/

namespace Tripwire

/-- Lines count from one, and a line resolves when it or a later one has code. -/
theorem Function.exists_offsetOfLine_iff {f : Function} {line : Nat} :
    (∃ offset, f.offsetOfLine line = .ok offset) ↔
      1 ≤ line ∧ ∃ e ∈ f.lines.entries, ∃ current, e.line = some current ∧ line ≤ current := by
  have hfind : (∃ offset, f.lines.offsetOfLine line = .ok offset) ↔
      ∃ e ∈ f.lines.entries, ∃ current, e.line = some current ∧ line ≤ current := by
    unfold LineTable.offsetOfLine
    split
    · rename_i e he
      have hline := List.find?_some he
      simp only [Option.any_eq_true, decide_eq_true_eq] at hline
      simp only [Except.ok.injEq, exists_eq', true_iff]
      exact ⟨e, List.mem_of_find?_eq_some he, hline⟩
    · rename_i hnone
      simp only [reduceCtorEq, exists_const, false_iff]
      rintro ⟨e, he, hline⟩
      have hno := List.find?_eq_none.1 hnone e he
      simp only [Option.any_eq_true, decide_eq_true_eq] at hno
      exact hno hline
  unfold Function.offsetOfLine
  by_cases hzero : line = 0
  · simp [hzero]
  · rw [if_neg hzero, hfind, and_iff_right (Nat.one_le_iff_ne_zero.2 hzero)]

namespace Session

/-- The code with the call of the breakpoint in front of the line can be laid out below the bound of
sizes. -/
def HasRoom (s : Session) (line id : Nat) : Prop :=
  ∀ w k, Block.decode s.function.code = .ok w → k < w.length →
    s.function.offsetOfLine line = .ok (w.start k) →
      ∃ c, w.Fitted k (s.call id) c ∧ c.size < limit32 / 2

/-- The requests are granted one after another. -/
def Grants (s : Session) : List Request → Prop
  | [] => True
  | r :: rest => (∃ p, r.run s.injector s.function = .ok p) ∧ (s.after r).Grants rest

/-- There is room when all jumps can be as wide as can be. -/
theorem hasRoom_of_fullSize {s : Session} {line id : Nat} {w : Block}
    (hw : Block.decode s.function.code = .ok w) (hvalid : w.Valid)
    (hroom : w.fullSize + (s.call id).size < limit32 / 2) : s.HasRoom line id := by
  intro w' k hw' hk _
  rw [hw] at hw'
  cases hw'
  have hlimit : w.fullSize + (s.call id).size < limit32 := hroom.trans (by decide)
  obtain ⟨c, hc, hsize⟩ :=
    Block.exists_fitted hvalid (s.injector.addable_callFor s.function id) hk.le hlimit
  exact ⟨c, hc, hsize.trans_lt hroom⟩

/-- Whether there is room can be told from the code. Below half a gigabyte there is. -/
theorem hasRoom_of_length {s : Session} {line id : Nat} {w : Block}
    (hw : Block.decode s.function.code = .ok w) (hvalid : w.Valid)
    (hlength : maximalWidth * s.function.code.length + 40 < limit32 / 2) : s.HasRoom line id := by
  have hfull := Block.fullSize_le_of_solid hvalid.solid
  have hcall : (s.call id).size ≤ 40 := s.injector.size_callFor_le s.function id
  rw [Block.size_of_decode hw] at hfull
  exact hasRoom_of_fullSize hw hvalid (by omega)

end Session

namespace Kept

variable {target : CallTarget} {f fn' : Function} {b : Block} {s : Session} {inj' : Injector}
  {line id : Nat} {k : Mark}

/-- When a breakpoint can be set. -/
theorem exists_insert_iff (hf : f.WellFormed b) (h : Kept target f b s)
    (hroom : s.HasRoom line id) :
    (∃ p, s.injector.insert s.function line id = .ok p) ↔
      s.injector.registry.get? id = none ∧ (∃ offset, s.function.offsetOfLine line = .ok offset) ∧
        s.function.stackDepth + (s.call id).stackGrowth < limit32 := by
  constructor
  · rintro ⟨⟨inj', fn'⟩, hok⟩
    obtain ⟨offset, e, lines, hnone, hline, -, -, hdepth, -⟩ := Injector.insert_eq_ok_iff.1 hok
    exact ⟨hnone, ⟨offset, hline⟩, hdepth⟩
  · rintro ⟨hnone, ⟨offset, hline⟩, hdepth⟩
    obtain ⟨body, hcarries⟩ := h.carries
    obtain ⟨m, hm, hfline, rfl⟩ := (hcarries.offsetOfLine_eq hf h.small.code_lt).1 hline
    have hlt : frontIndex (s.front f b) m < (weave (s.front f b) 0 body).length :=
      (Nat.le_add_right _ _).trans_lt (hcarries.placeIndex_lt hm)
    obtain ⟨c, hc, hsize⟩ := hroom _ _ hcarries.decode_eq hlt hline
    exact hcarries.exists_insert hf h.small hm hfline hnone hdepth hc (hsize.trans (by decide))

/-- Every breakpoint that is set can be cleared at the line where it was set. -/
theorem exists_remove (hf : f.WellFormed b) (h : Kept target f b s) (hk : k ∈ s.marks) :
    ∃ p, s.injector.remove s.function k.line k.id = .ok p := by
  obtain ⟨body, hcarries⟩ := h.carries
  obtain ⟨m, hm, hline, ids, after, hstands⟩ := h.exists_stands hk
  have hget : s.injector.registry.get? k.id = some (s.breakpoint k) :=
    Registry.get?_eq_some_iff.2 ⟨(h.registry _).2 ⟨k, hk, rfl⟩, rfl⟩
  apply hcarries.exists_remove hf h.small hm hline hstands
    (fun j i hi => isJump_of_mem_front hi) hget rfl
  -- The budget of the function holds what the call of the breakpoint has added.
  have hgrowth : (s.call k.id).stackGrowth ≤ s.budget :=
    List.le_sum_of_mem (List.mem_map_of_mem hk)
  rw [h.stackDepth_eq]
  exact hgrowth.trans (Nat.le_add_left _ _)

/-- Clearing a breakpoint keeps the sizes of the function small. -/
theorem small_of_remove (h : Kept target f b s)
    (hok : s.injector.remove s.function line id = .ok (inj', fn')) : fn'.Small := by
  obtain ⟨body, hcarries⟩ := h.carries
  obtain ⟨bp, offset, w, start, e, lines, -, -, -, -, hremove, -, -, -, -, rfl⟩ :=
    Injector.remove_eq_ok_iff.1 hok
  have hcode := length_le_of_removeAt hcarries.decode_eq hcarries.valid hremove
  exact ⟨hcode.trans_lt h.small.code_lt, h.small.names_lt, h.small.constants_lt⟩

end Kept

/-- The breakpoints that are set can be cleared one after another, in any order. -/
theorem grants_of_reachable {target : CallTarget} {f : Function} {b : Block} {s : Session}
    (hf : f.WellFormed b) (h : Reachable target f s) {order : List Mark} (hnodup : order.Nodup)
    (horder : order ⊆ s.marks) : s.Grants (order.map fun k => .remove k.line k.id) := by
  induction order generalizing s with
  | nil => trivial
  | cons k order ih =>
    have hkept := kept_of_reachable hf h
    obtain ⟨hfresh, hnodup⟩ := List.nodup_cons.1 hnodup
    obtain ⟨hk, horder⟩ := List.cons_subset.1 horder
    obtain ⟨⟨inj', fn'⟩, hok⟩ := hkept.exists_remove hf hk
    have hsame : ∀ k' ∈ s.marks, k'.id = k.id → k' = k := by
      intro k' hk' hid
      exact List.inj_on_of_nodup_map hkept.nodup hk' hk hid
    have hrun : Request.run s.injector s.function (.remove k.line k.id) = .ok (inj', fn') := hok
    have hadmits : s.Admits (.remove k.line k.id) := by
      intro k' hk' hid
      rw [hsame k' hk' hid]
    have hreachable := h.after_of_ok hadmits (hkept.small_of_remove hok) hrun
    refine ⟨⟨_, hrun⟩, ?_⟩
    rw [Session.after_of_ok hrun]
    apply ih hreachable hnodup
    -- The other breakpoints have other numbers, so that they stay set.
    intro k' hk'
    refine List.mem_filter.2 ⟨horder hk', decide_eq_true fun hid => hfresh ?_⟩
    rw [← hsame k' (horder hk') hid]
    exact hk'

/-- In every session a breakpoint is set exactly when its number is not active, its line is a line
from which on there is code, and the stack budget with the growth of its call is a 32-bit number, as
long as the code with the call has room. The numbers that are active are those of the breakpoints
that are set, and these can be cleared one after another, in any order, each at the line at which it
was set. -/
theorem progress_of_reachable {target : CallTarget} {f : Function} {b : Block} {s : Session}
    (hf : f.WellFormed b) (h : Reachable target f s) :
    (∀ line id, s.HasRoom line id →
      ((∃ p, s.injector.insert s.function line id = .ok p) ↔
        s.injector.registry.get? id = none ∧ 1 ≤ line ∧
          (∃ e ∈ s.function.lines.entries, ∃ current, e.line = some current ∧ line ≤ current) ∧
          s.function.stackDepth + (s.call id).stackGrowth < limit32)) ∧
      (∀ id, (∃ bp, s.injector.registry.get? id = some bp) ↔ ∃ k ∈ s.marks, k.id = id) ∧
      ∀ order : List Mark, order.Nodup → order ⊆ s.marks →
        s.Grants (order.map fun k => .remove k.line k.id) := by
  have hkept := kept_of_reachable hf h
  refine ⟨fun line id hroom => ?_, fun id => hkept.exists_get?_iff, fun order hnodup horder =>
    grants_of_reachable hf h hnodup horder⟩
  rw [hkept.exists_insert_iff hf hroom, Function.exists_offsetOfLine_iff, and_assoc]

/-- In code of less than half a gigabyte every call has room. -/
theorem exists_insert_iff_of_reachable {target : CallTarget} {f : Function} {b : Block}
    {s : Session} (hf : f.WellFormed b) (h : Reachable target f s)
    (hlength : maximalWidth * s.function.code.length + 40 < limit32 / 2) (line id : Nat) :
    (∃ p, s.injector.insert s.function line id = .ok p) ↔
      s.injector.registry.get? id = none ∧ 1 ≤ line ∧
        (∃ e ∈ s.function.lines.entries, ∃ current, e.line = some current ∧ line ≤ current) ∧
        s.function.stackDepth + (s.call id).stackGrowth < limit32 := by
  have hkept := kept_of_reachable hf h
  obtain ⟨body, hcarries⟩ := hkept.carries
  have hroom : s.HasRoom line id :=
    Session.hasRoom_of_length hcarries.decode_eq hcarries.valid hlength
  rw [hkept.exists_insert_iff hf hroom, Function.exists_offsetOfLine_iff, and_assoc]

/-- A breakpoint is set and cleared again. -/
theorem exists_grants_twoLines : (∃ p, (Injector.start .standard).insert .twoLines 2 7 = .ok p) ∧
    ∃ s, Reachable .standard .twoLines s ∧ s.marks = [⟨7, 2⟩] ∧ s.Grants [.remove 2 7] := by
  constructor
  · have hroom : (Session.start .standard .twoLines).HasRoom 2 7 :=
      Session.hasRoom_of_fullSize wellFormed_twoLines.decode_eq wellFormed_twoLines.valid (by decide)
    apply ((progress_of_reachable wellFormed_twoLines .start).1 2 7 hroom).2
    exact ⟨rfl, by decide, by decide, by decide⟩
  · obtain ⟨inj, fn, hok, hsmall⟩ := exists_insert_twoLines
    have hreachable : Reachable .standard .twoLines ⟨inj, fn, [⟨7, 2⟩]⟩ :=
      Reachable.start.after_of_ok (r := .insert 2 7) trivial hsmall hok
    have hgrants := (progress_of_reachable wellFormed_twoLines hreachable).2.2 [⟨7, 2⟩]
      (List.nodup_singleton _) (List.Subset.refl _)
    exact ⟨_, hreachable, rfl, hgrants⟩

end Tripwire
