import Tripwire.Proofs.LineTable.Expand
import Tripwire.Proofs.LineTable.Follow

/-!
# One run of a line table changes its size

A change of size is made in the run that covers the offset, wherever in it the offset
lies. The other runs stay, and so do the lines: those of the bytes in front of the run
where they are, those of the bytes behind it as far away as the run has grown or
shrunk. A run that shrinks to nothing has no entry any more but still moves the
counter, so that the lines behind it do not depend on it.

* `LineTable.exists_run_of_mem_entries`: the run behind an entry covers bytes;
* `LineTable.Resizes`: what a change of size does to a table, with `LineTable.resizes_of_runs`;
* `LineTable.adjust_cases`: what a change of size comes to;
* `LineTable.attempt_of_error`: a change of size that fails leaves the table as it was;
* `LineTable.adjust_spec`: when a change of size fails, and what it does else.
-/

namespace Tripwire

namespace LineTable

variable {t t' : LineTable} {offset : Nat} {delta : Int} {pre post : List LineRun} {run : LineRun}

/-! ### Entries and their runs -/

/-- The run behind an entry covers bytes. -/
theorem exists_run_of_mem_entriesFrom {p index : Nat} {counter : Int} {runs : List LineRun}
    {e : LineEntry} (he : e ∈ entriesFrom p counter index runs) :
    ∃ i run, e.run = index + i ∧ runs[i]? = some run ∧ run.size ≠ 0 := by
  induction runs generalizing p counter index with
  | nil => cases he
  | cons run runs ih =>
    have htail : ∀ {p counter}, e ∈ entriesFrom p counter (index + 1) runs →
        ∃ i run', e.run = index + i ∧ (run :: runs)[i]? = some run' ∧ run'.size ≠ 0 := by
      intro p counter he
      obtain ⟨i, run', hrun, hget, hsize⟩ := ih he
      exact ⟨i + 1, run', by omega, hget, hsize⟩
    rw [entriesFrom] at he
    by_cases hempty : run.size = 0
    · simp only [if_pos hempty] at he
      exact htail he
    · simp only [if_neg hempty] at he
      rcases List.mem_cons.1 he with rfl | he
      · exact ⟨0, run, rfl, rfl, hempty⟩
      · exact htail he

theorem exists_run_of_mem_entries {e : LineEntry} (he : e ∈ t.entries) :
    ∃ run, t.runs[e.run]? = some run ∧ run.size ≠ 0 := by
  obtain ⟨i, run, hrun, hget, hsize⟩ := exists_run_of_mem_entriesFrom he
  rw [Nat.zero_add] at hrun
  exact ⟨run, hrun ▸ hget, hsize⟩

/-! ### A run with another size -/

/-- All bytes of a run have one line. -/
theorem Covers.lineAt?_eq {p : Nat} (h : t.Covers offset pre run post) (hsize : t.size < limit32)
    (hle : span pre ≤ p) (hlt : p < span pre + run.size) : t.lineAt? p = t.lineAt? offset := by
  obtain ⟨hruns, hstart, hstop⟩ := h
  obtain ⟨front, line, back, hlength, hsplit⟩ := exists_expand_split t.firstLine pre run.step post
  have hexpand : t.expand = _ := hruns ▸ hsplit run.size
  rw [lineAt?_eq_join hsize, lineAt?_eq_join hsize, hexpand, getElem?_split, getElem?_split,
    if_neg (by omega), if_pos (by omega), if_neg (by omega), if_pos (by omega)]

/-- A cut lies in front of the run or behind it. -/
theorem Covers.le_of_mem_cuts {a : Nat} (h : t.Covers offset pre run post) (ha : a ∈ t.cuts)
    (hoffset : a ≤ offset) : a ≤ span pre := by
  obtain ⟨hruns, hstart, hstop⟩ := h
  rw [cuts, hruns, mem_cutsFrom_append] at ha
  rcases ha with ha | ha
  · have := (le_of_mem_cutsFrom ha).2
    omega
  · rcases List.mem_cons.1 ha with rfl | ha
    · omega
    · have := (le_of_mem_cutsFrom ha).1
      omega

/-- A cut behind an offset does not lie in front of the end of its run. -/
theorem Covers.stop_le_of_mem_cuts {a : Nat} (h : t.Covers offset pre run post) (ha : a ∈ t.cuts)
    (hoffset : offset < a) : span pre + run.size ≤ a := by
  obtain ⟨hruns, hstart, hstop⟩ := h
  rw [cuts, hruns, mem_cutsFrom_append] at ha
  rcases ha with ha | ha
  · have := (le_of_mem_cutsFrom ha).2
    omega
  · rcases List.mem_cons.1 ha with rfl | ha
    · omega
    · have := (le_of_mem_cutsFrom ha).1
      omega

/-- The table `t'` is `t` with a run, between those in front of it and those behind it, that has
grown by `delta`. -/
structure Resizes (t : LineTable) (delta : Int) (pre : List LineRun) (run : LineRun)
    (post : List LineRun) (t' : LineTable) : Prop where
  firstLine_eq : t'.firstLine = t.firstLine
  runs_eq : ∃ size : Nat, (size : Int) = run.size + delta ∧
    t'.runs = pre ++ ⟨size, run.step⟩ :: post
  size_eq : (t'.size : Int) = t.size + delta
  /-- Bytes in front of the run keep their lines. -/
  front : ∀ p < span pre, t'.lineAt? p = t.lineAt? p
  /-- All bytes of the run have the line that it had. -/
  inside : ∀ p q : Nat, span pre ≤ p → p < span pre + run.size → span pre ≤ q →
    (q : Int) < span pre + run.size + delta → t'.lineAt? q = t.lineAt? p
  /-- Bytes behind the run keep their lines. -/
  back : ∀ p q : Nat, span pre + run.size ≤ p → (q : Int) = p + delta →
    t'.lineAt? q = t.lineAt? p
  /-- A run that is left without bytes has no entry. -/
  vanished : run.size + delta = 0 → ∀ e ∈ t'.entries, e.run ≠ pre.length

theorem resizes_of_runs (hsize : t.size < limit32) (hsize' : t.size + delta < limit32)
    (hruns : t.runs = pre ++ run :: post) (hnonneg : 0 ≤ run.size + delta) :
    t.Resizes delta pre run post
      ⟨t.firstLine, pre ++ ⟨(run.size + delta).toNat, run.step⟩ :: post⟩ := by
  obtain ⟨size, hnew⟩ := Int.eq_ofNat_of_zero_le hnonneg
  rw [hnew, Int.toNat_natCast]
  have htotal : ((LineTable.mk t.firstLine (pre ++ ⟨size, run.step⟩ :: post)).size : Int) =
      t.size + delta := by
    simp only [size_eq_span, hruns, span_append, span_cons]
    omega
  -- Both tables give the bytes of the run one line, between the same lines in front and behind.
  obtain ⟨front, line, back, hlength, hsplit⟩ :=
    exists_expand_split t.firstLine pre run.step post
  have hold : ∀ p, t.lineAt? p = ((front ++ (List.replicate run.size line ++ back))[p]?).join := by
    intro p
    have hexpand : t.expand = _ := hruns ▸ hsplit run.size
    rw [lineAt?_eq_join hsize, hexpand]
  have hnewline : ∀ q, (LineTable.mk t.firstLine (pre ++ ⟨size, run.step⟩ :: post)).lineAt? q =
      ((front ++ (List.replicate size line ++ back))[q]?).join := by
    intro q
    rw [lineAt?_eq_join (by omega), hsplit]
  refine ⟨rfl, ⟨size, hnew.symm, rfl⟩, htotal, fun p hp => ?_, fun p q hp hlt hq hlt' => ?_,
    fun p q hp hq => ?_, fun hzero e he heq => ?_⟩
  · rw [hold, hnewline, getElem?_split, getElem?_split, if_pos (by omega), if_pos (by omega)]
  · rw [hold, hnewline, getElem?_split, getElem?_split, if_neg (by omega), if_pos (by omega),
      if_neg (by omega), if_pos (by omega)]
  · rw [hold, hnewline, getElem?_split, getElem?_split, if_neg (by omega), if_neg (by omega),
      if_neg (by omega), if_neg (by omega),
      show q - (front.length + size) = p - (front.length + run.size) by omega]
  · obtain ⟨run', hget, hne⟩ := exists_run_of_mem_entries he
    rw [heq, List.getElem?_append_right le_rfl, Nat.sub_self] at hget
    cases hget
    exact hne (show size = 0 by omega)

/-- What a change of size comes to. -/
theorem adjust_cases (hsize : t.size < limit32) (hsize' : t.size + delta < limit32) :
    (t.size ≤ offset ∧ t.adjust offset delta = .error (.offsetNotFound offset)) ∨
      (∃ pre run post, t.Covers offset pre run post ∧ run.size + delta < 0 ∧
        t.adjust offset delta = .error (.underrun .lineTableRun (run.size + delta).natAbs)) ∨
      ∃ pre run post t', t.Covers offset pre run post ∧ t.Resizes delta pre run post t' ∧
        t.adjust offset delta = .ok t' := by
  by_cases hin : offset < t.size
  · obtain ⟨pre, run, post, hcovers⟩ := exists_covers hin
    have hrun : run.size ≤ t.size := by
      rw [size_eq_span, hcovers.runs_eq, span_append, span_cons]
      omega
    by_cases hneg : run.size + delta < 0
    · refine .inr (.inl ⟨pre, run, post, hcovers, hneg, ?_⟩)
      rw [adjust_of_covers hsize hcovers, if_pos hneg]
    · refine .inr (.inr ⟨pre, run, post, _, hcovers,
        resizes_of_runs hsize hsize' hcovers.runs_eq (by omega), ?_⟩)
      rw [adjust_of_covers hsize hcovers, if_neg hneg, if_pos (by omega)]
  · have hle := Nat.le_of_not_lt hin
    exact .inl ⟨hle, adjust_of_size_le hsize hle⟩

theorem exists_resizes_of_adjust (hsize : t.size < limit32) (hsize' : t.size + delta < limit32)
    (h : t.adjust offset delta = .ok t') : ∃ pre run post, t.Covers offset pre run post ∧
      t.Resizes delta pre run post t' := by
  rcases adjust_cases hsize hsize' with ⟨-, hadjust⟩ | ⟨pre, run, post, -, -, hadjust⟩ |
    ⟨pre, run, post, t'', hcovers, hresizes, hadjust⟩
  · cases hadjust.symm.trans h
  · cases hadjust.symm.trans h
  · cases hadjust.symm.trans h
    exact ⟨pre, run, post, hcovers, hresizes⟩

/-- A change of size that fails leaves the table as it was. -/
theorem attempt_of_error {fault : Fault} (h : t.adjust offset delta = .error fault) :
    (adjustRun offset delta).attempt t = (t, some fault) := by
  have hresult : (adjustRun offset delta).result t = .error fault := h
  rw [(atomic_adjustRun offset delta).attempt_eq, hresult]

/-- It ends the changes of size that it stands in front of. -/
theorem adjustAll_of_error {fault : Fault} (h : t.adjust offset delta = .error fault)
    (shifts : List Shift) : t.adjustAll (.within offset delta :: shifts) = (t, some fault) := by
  have hshift : t.adjust (Shift.within offset delta).lineOffset (Shift.within offset delta).delta =
      .error fault := h
  rw [adjustAll_cons, hshift]

/-- As long as the table stays below the 32-bit limit, a change of size fails behind its end, or
when the run that covers the offset has too few bytes, and then the table stays as it was.
Otherwise that run is resized. -/
theorem adjust_spec (hsize : t.size < limit32) (hsize' : t.size + delta < limit32) :
    (t.adjust offset delta = .error (.offsetNotFound offset) ↔ t.size ≤ offset) ∧
      (∀ missing, t.adjust offset delta = .error (.underrun .lineTableRun missing) ↔
        ∃ pre run post, t.Covers offset pre run post ∧ run.size + delta < 0 ∧
          missing = (run.size + delta).natAbs) ∧
      (∀ fault, t.adjust offset delta = .error fault →
        (t.size ≤ offset ∨ ∃ pre run post, t.Covers offset pre run post ∧ run.size + delta < 0) ∧
          (adjustRun offset delta).attempt t = (t, some fault) ∧
          ∀ shifts, t.adjustAll (.within offset delta :: shifts) = (t, some fault)) ∧
      ∀ t', t.adjust offset delta = .ok t' → ∃ pre run post, t.Covers offset pre run post ∧
        t.Resizes delta pre run post t' := by
  refine ⟨⟨fun h => ?_, adjust_of_size_le hsize⟩, fun missing => ⟨fun h => ?_, ?_⟩,
    fun fault h => ⟨?_, attempt_of_error h, adjustAll_of_error h⟩,
    fun t' h => exists_resizes_of_adjust hsize hsize' h⟩
  · rcases adjust_cases hsize hsize' with ⟨hle, -⟩ | ⟨pre, run, post, -, -, hadjust⟩ |
      ⟨pre, run, post, t', -, -, hadjust⟩
    · exact hle
    · cases hadjust.symm.trans h
    · cases hadjust.symm.trans h
  · rcases adjust_cases hsize hsize' with ⟨-, hadjust⟩ | ⟨pre, run, post, hcovers, hneg, hadjust⟩ |
      ⟨pre, run, post, t', -, -, hadjust⟩
    · cases hadjust.symm.trans h
    · cases hadjust.symm.trans h
      exact ⟨pre, run, post, hcovers, hneg, rfl⟩
    · cases hadjust.symm.trans h
  · rintro ⟨pre, run, post, hcovers, hneg, rfl⟩
    rw [adjust_of_covers hsize hcovers, if_pos hneg]
  · rcases adjust_cases hsize hsize' with ⟨hle, -⟩ | ⟨pre, run, post, hcovers, hneg, -⟩ |
      ⟨pre, run, post, t', -, -, hadjust⟩
    · exact .inl hle
    · exact .inr ⟨pre, run, post, hcovers, hneg⟩
    · cases hadjust.symm.trans h

/-- A table with an empty run and bytes without a line. -/
def folded : LineTable := ⟨10, [⟨4, some 0⟩, ⟨2, some 5⟩, ⟨0, some 3⟩, ⟨6, none⟩, ⟨2, some (-4)⟩]⟩

/-- The second run of that table is taken away: the steps of its counter still count. -/
theorem exists_adjust_folded :
    folded.size < limit32 ∧ folded.size + (-2 : Int) < limit32 ∧
      folded.adjust 5 (-2) =
        .ok ⟨10, [⟨4, some 0⟩, ⟨0, some 5⟩, ⟨0, some 3⟩, ⟨6, none⟩, ⟨2, some (-4)⟩]⟩ ∧
      (∃ pre run post, folded.Covers 5 pre run post ∧ folded.Resizes (-2) pre run post
        ⟨10, [⟨4, some 0⟩, ⟨0, some 5⟩, ⟨0, some 3⟩, ⟨6, none⟩, ⟨2, some (-4)⟩]⟩) ∧
      folded.adjust 14 (-2) = .error (.offsetNotFound 14) := by
  have hsize : folded.size < limit32 := by decide
  have hsize' : folded.size + (-2 : Int) < limit32 := by decide
  have hadjust : folded.adjust 5 (-2) =
      .ok ⟨10, [⟨4, some 0⟩, ⟨0, some 5⟩, ⟨0, some 3⟩, ⟨6, none⟩, ⟨2, some (-4)⟩]⟩ := by decide
  exact ⟨hsize, hsize', hadjust, (adjust_spec hsize hsize').2.2.2 _ hadjust,
    (adjust_spec hsize hsize').1.2 (by decide)⟩

end LineTable

end Tripwire
