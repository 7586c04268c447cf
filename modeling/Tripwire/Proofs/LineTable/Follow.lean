import Tripwire.Proofs.LineTable.LookUp
import Tripwire.Proofs.Matching
import Tripwire.Proofs.Program
import Mathlib.Algebra.BigOperators.Group.List.Basic

/-!
# Line tables that follow an edit

A change of size inside one run moves the cuts behind it. When the changes of an
edit are made from the back to the front, each finds its run where it was before
the edit, and together they move every cut by the changes in front of it.

* `LineTable.Covers`: the run that covers an offset;
* `LineTable.atomic_adjustRun`: a change of size that fails changes nothing;
* `LineTable.adjust_of_covers`, `LineTable.adjust_eq_ok_iff`: one change of size, as a change of
  one run;
* `LineTable.recut_of_adjust`: one change of size, as moved cuts;
* `Shift.drift`: where the changes of an edit move a cut;
* `LineTable.Orderly`: changes that leave the runs in order as they are made;
* `LineTable.recut_of_adjustAll`, `LineTable.exists_adjustAll`: all changes of an edit;
* `LineTable.orderly_of_growing`, `LineTable.orderly_of_shrinking`: edits that are orderly.
-/

namespace Tripwire

namespace LineTable

/-! ### One change of size -/

section Adjust

variable {t t' : LineTable} {g : Nat → Nat} {p offset : Nat} {delta : Int} {runs : List LineRun}

theorem exists_run_of_lt (hle : p ≤ offset) (hlt : offset < p + span runs) :
    ∃ pre run post, runs = pre ++ run :: post ∧ p + span pre ≤ offset ∧
      offset < p + span pre + run.size := by
  induction runs generalizing p with
  | nil =>
    rw [span_nil] at hlt
    omega
  | cons run runs ih =>
    by_cases hin : offset < p + run.size
    · exact ⟨[], run, runs, rfl, by simpa using hle, by simpa using hin⟩
    · rw [span_cons] at hlt
      obtain ⟨pre, run', post, rfl, hpre, hrun⟩ := ih (p := p + run.size) (by omega) (by omega)
      refine ⟨run :: pre, run', post, rfl, ?_, ?_⟩ <;> rw [span_cons] <;> omega

theorem find?_entriesFrom_of_split {pre post : List LineRun} {run : LineRun}
    (hsize : p + span (pre ++ run :: post) < limit32) (hle : p + span pre ≤ offset)
    (hlt : offset < p + span pre + run.size) (counter : Int) (index : Nat) :
    ∃ e, (entriesFrom p counter index (pre ++ run :: post)).find? (fun e => e.contains offset) =
      some e ∧ e.run = index + pre.length := by
  induction pre generalizing p counter index with
  | nil =>
    rw [List.nil_append, span_cons] at hsize
    rw [span_nil, Nat.add_zero] at hle hlt
    have hstop : min (p + run.size) (limit32 - 1) = p + run.size := by omega
    have hcontains : decide (p ≤ offset ∧ offset < p + run.size) = true :=
      decide_eq_true ⟨hle, hlt⟩
    rw [List.nil_append, entriesFrom]
    simp only [if_neg (show ¬ run.size = 0 by omega), hstop, List.find?_cons, LineEntry.contains,
      hcontains]
    exact ⟨_, rfl, rfl⟩
  | cons first pre ih =>
    rw [List.cons_append, span_cons, ← Nat.add_assoc] at hsize
    rw [span_cons, ← Nat.add_assoc] at hle hlt
    have hsum : span (pre ++ run :: post) = span pre + (run.size + span post) := by
      rw [span_append, span_cons]
    have hnext := ih hsize hle hlt (counter + first.step.getD 0) (index + 1)
    obtain ⟨e, he, hrun⟩ := hnext
    rw [List.cons_append, entriesFrom]
    refine ⟨e, ?_, by rw [hrun, List.length_cons]; omega⟩
    by_cases hempty : first.size = 0
    · simp only [if_pos hempty]
      rw [hempty] at he
      exact he
    · have hstop : min (p + first.size) (limit32 - 1) = p + first.size := by omega
      have hcontains : decide (p ≤ offset ∧ offset < p + first.size) = false :=
        decide_eq_false (by omega)
      simp only [if_neg hempty, hstop, List.find?_cons, LineEntry.contains, hcontains]
      exact he

/-- The run that covers an offset, with those in front of it and those behind it. -/
structure Covers (t : LineTable) (offset : Nat) (pre : List LineRun) (run : LineRun)
    (post : List LineRun) : Prop where
  runs_eq : t.runs = pre ++ run :: post
  start_le : span pre ≤ offset
  lt_stop : offset < span pre + run.size

theorem exists_covers (h : offset < t.size) : ∃ pre run post, t.Covers offset pre run post := by
  rw [size_eq_span, ← Nat.zero_add (span t.runs)] at h
  obtain ⟨pre, run, post, hruns, hle, hlt⟩ := exists_run_of_lt (Nat.zero_le offset) h
  rw [Nat.zero_add] at hle hlt
  exact ⟨pre, run, post, hruns, hle, hlt⟩

/-- A look-up reports the index of the run that covers the offset. -/
theorem Covers.exists_entryAt {pre post : List LineRun} {run : LineRun}
    (h : t.Covers offset pre run post) (hsize : t.size < limit32) :
    ∃ e, t.entryAt offset = .ok e ∧ e.run = pre.length := by
  obtain ⟨hruns, hle, hlt⟩ := h
  rw [size_eq_span, hruns, ← Nat.zero_add (span _)] at hsize
  rw [← Nat.zero_add (span pre)] at hle hlt
  obtain ⟨e, he, hrun⟩ := find?_entriesFrom_of_split hsize hle hlt t.firstLine 0
  rw [Nat.zero_add] at hrun
  exact ⟨e, by rw [entryAt, entries, hruns, he], hrun⟩

/-- The run is looked up and its new size checked before anything changes. -/
theorem atomic_adjustRun (offset : Nat) (delta : Int) :
    Program.Atomic (adjustRun offset delta) := by
  unfold adjustRun
  apply Program.silent_get.bind_atomic
  intro t
  apply (Program.silent_lift (t.entryAt offset)).bind_atomic
  intro entry
  apply (Program.silent_require _ _).bind_atomic
  intro _
  apply (Program.silent_require _ _).bind_atomic
  intro _
  exact (Program.safe_change _).atomic

theorem adjust_of_entryAt {entry : LineEntry} {run : LineRun} (h : t.entryAt offset = .ok entry)
    (hrun : t.runs[entry.run]? = some run) : t.adjust offset delta =
      if run.size + delta < 0 then
        .error (.underrun .lineTableRun (run.size + delta).natAbs)
      else if run.size + delta < limit32 then .ok (t.resize entry.run (run.size + delta).toNat)
      else .error (.inconsistent (.runTooLong offset)) := by
  simp only [adjust, Program.result, adjustRun, Program.exec_bind, Program.exec_get,
    Program.exec_lift, Program.exec_require, Program.exec_change, h, hrun, Option.map_some,
    Option.getD_some]
  by_cases hneg : (run.size : Int) + delta < 0
  · rw [if_pos hneg, if_neg (not_le.2 hneg)]
  · rw [if_neg hneg, if_pos (not_lt.1 hneg)]
    by_cases hsmall : (run.size : Int) + delta < limit32
    · rw [if_pos hsmall, if_pos hsmall]
    · rw [if_neg hsmall, if_neg hsmall]

theorem adjust_of_entryAt_eq_error {fault : Fault} (h : t.entryAt offset = .error fault) :
    t.adjust offset delta = .error fault := by
  simp only [adjust, Program.result, adjustRun, Program.exec_bind, Program.exec_get,
    Program.exec_lift, h]

/-- A change of size is made in the run that covers the offset, if its new size is one. -/
theorem adjust_of_covers {pre post : List LineRun} {run : LineRun} (hsize : t.size < limit32)
    (h : t.Covers offset pre run post) : t.adjust offset delta =
      if run.size + delta < 0 then
        .error (.underrun .lineTableRun (run.size + delta).natAbs)
      else if run.size + delta < limit32 then
        .ok ⟨t.firstLine, pre ++ ⟨(run.size + delta).toNat, run.step⟩ :: post⟩
      else .error (.inconsistent (.runTooLong offset)) := by
  obtain ⟨e, hentry, hrun⟩ := h.exists_entryAt hsize
  have hget : t.runs[e.run]? = some run := by
    rw [h.runs_eq, hrun, List.getElem?_append_right le_rfl, Nat.sub_self]
    rfl
  have hresize : t.resize e.run (run.size + delta).toNat =
      ⟨t.firstLine, pre ++ ⟨(run.size + delta).toNat, run.step⟩ :: post⟩ := by
    rw [resize, h.runs_eq, hrun, modify_append_length]
  rw [adjust_of_entryAt hentry hget, hresize]

/-- Behind the end no size can be changed. -/
theorem adjust_of_size_le (hsize : t.size < limit32) (h : t.size ≤ offset) :
    t.adjust offset delta = .error (.offsetNotFound offset) :=
  adjust_of_entryAt_eq_error (entryAt_of_size_le hsize h)

theorem adjust_eq_ok_iff (hsize : t.size < limit32) :
    t.adjust offset delta = .ok t' ↔ ∃ pre run post, t.runs = pre ++ run :: post ∧
      span pre ≤ offset ∧ offset < span pre + run.size ∧ 0 ≤ run.size + delta ∧
      run.size + delta < limit32 ∧
      t' = ⟨t.firstLine, pre ++ ⟨(run.size + delta).toNat, run.step⟩ :: post⟩ := by
  constructor
  · intro h
    by_cases hin : offset < t.size
    · obtain ⟨pre, run, post, hcovers⟩ := exists_covers hin
      rw [adjust_of_covers hsize hcovers] at h
      split at h
      · cases h
      · split at h
        · cases h
          exact ⟨pre, run, post, hcovers.runs_eq, hcovers.start_le, hcovers.lt_stop, by omega,
            ‹_›, rfl⟩
        · cases h
    · rw [adjust_of_size_le hsize (Nat.le_of_not_lt hin)] at h
      cases h
  · rintro ⟨pre, run, post, hruns, hle, hlt, hnonneg, hsmall, rfl⟩
    rw [adjust_of_covers hsize ⟨hruns, hle, hlt⟩, if_neg (by omega), if_pos hsmall]

/-- Runs whose cuts are all moved alike stay as they are. -/
theorem recutFrom_of_moved_alike (h : ∀ q ∈ cutsFrom p runs, (g q : Int) = q + delta) :
    recutFrom g p runs = runs := by
  induction runs generalizing p with
  | nil => rfl
  | cons run runs ih =>
    have htail : ∀ q ∈ cutsFrom (p + run.size) runs, (g q : Int) = q + delta := fun q hq =>
      h q (List.mem_cons_of_mem _ hq)
    have hhead := h p (mem_cutsFrom_self p _)
    have hnext := htail _ (mem_cutsFrom_self (p + run.size) runs)
    have hsame : g (p + run.size) - g p = run.size := by omega
    rw [recutFrom, hsame, ih htail]

theorem mem_cutsFrom_append {pre post : List LineRun} {q : Nat} :
    q ∈ cutsFrom p (pre ++ post) ↔ q ∈ cutsFrom p pre ∨ q ∈ cutsFrom (p + span pre) post := by
  induction pre generalizing p with
  | nil =>
    rw [List.nil_append, span_nil, Nat.add_zero, cutsFrom, List.mem_singleton]
    exact ⟨.inr, fun h => h.elim (fun heq => heq ▸ mem_cutsFrom_self p post) id⟩
  | cons run pre ih =>
    rw [List.cons_append, cutsFrom, List.mem_cons, ih, cutsFrom, List.mem_cons, span_cons,
      Nat.add_assoc, or_assoc]

/-- A change of size moves the cuts behind its offset. -/
theorem recut_of_adjust (hsize : t.size < limit32) (h : t.adjust offset delta = .ok t')
    (hg : ∀ q ∈ t.cuts, (g q : Int) = q + if offset < q then delta else 0) : t' = t.recut g := by
  obtain ⟨pre, run, post, hruns, hle, hlt, hnonneg, -, rfl⟩ := (adjust_eq_ok_iff hsize).1 h
  -- The cuts up to the start of the run stay and those from its end on move together, so that no
  -- other run changes its size.
  have hfront : ∀ q ∈ cutsFrom 0 pre, (g q : Int) = q + (0 : Int) := by
    intro q hq
    have hbound := le_of_mem_cutsFrom hq
    rw [hg q (by rw [cuts, hruns, mem_cutsFrom_append]; exact .inl hq), if_neg (by omega)]
  have hback : ∀ q ∈ cutsFrom (0 + span pre + run.size) post, (g q : Int) = q + delta := by
    intro q hq
    have hbound := le_of_mem_cutsFrom hq
    have hmem : q ∈ t.cuts := by
      rw [cuts, hruns, mem_cutsFrom_append]
      exact .inr (List.mem_cons_of_mem _ hq)
    rw [hg q hmem, if_pos (by omega)]
  have hstart := hfront _ (add_span_mem_cutsFrom 0 pre)
  have hstop := hback _ (mem_cutsFrom_self _ post)
  have hrun : g (0 + span pre + run.size) - g (0 + span pre) = (run.size + delta).toNat := by
    omega
  rw [recut, hruns, recutFrom_append, recutFrom, recutFrom_of_moved_alike hfront,
    recutFrom_of_moved_alike hback, hrun]

end Adjust

end LineTable

/-! ### All changes of an edit -/

namespace Shift

/-- Where changes move a cut: each moves the cuts behind its line offset. -/
def drift (shifts : List Shift) (q : Nat) : Int :=
  q + total (shifts.filter fun s => s.lineOffset < q)

@[simp] theorem drift_nil (q : Nat) : drift [] q = q := by
  simp [drift]

@[simp] theorem drift_zero (shifts : List Shift) : drift shifts 0 = 0 := by
  simp [drift]

theorem drift_snoc (shifts : List Shift) (s : Shift) (q : Nat) :
    drift (shifts ++ [s]) q = drift shifts q + if s.lineOffset < q then s.delta else 0 := by
  by_cases h : s.lineOffset < q
  · simp [drift, h, Int.add_assoc]
  · simp [drift, h]

theorem total_eq_sum (shifts : List Shift) : total shifts = (shifts.map Shift.delta).sum := by
  induction shifts with
  | nil => rfl
  | cons s shifts ih => rw [total_cons, ih, List.map_cons, List.sum_cons]

theorem total_perm {a b : List Shift} (h : a.Perm b) : total a = total b := by
  rw [total_eq_sum, total_eq_sum]
  exact (h.map _).sum_eq

theorem drift_perm {a b : List Shift} (h : a.Perm b) (q : Nat) : drift a q = drift b q := by
  rw [drift, drift, total_perm (h.filter _)]

theorem total_nonneg {shifts : List Shift} (h : ∀ s ∈ shifts, 0 ≤ s.delta) : 0 ≤ total shifts := by
  rw [total_eq_sum]
  exact List.sum_nonneg fun d hd => by
    obtain ⟨s, hs, rfl⟩ := List.mem_map.1 hd
    exact h s hs

theorem total_nonpos {shifts : List Shift} (h : ∀ s ∈ shifts, s.delta ≤ 0) : total shifts ≤ 0 := by
  induction shifts with
  | nil => rfl
  | cons s shifts ih =>
    have hhead := h s (List.mem_cons_self ..)
    have htail := ih fun s' hs' => h s' (List.mem_cons_of_mem _ hs')
    rw [total_cons]
    omega

/-- A cut that no change lies in front of stays. -/
theorem drift_eq_self {shifts : List Shift} {q : Nat} (h : ∀ s ∈ shifts, q ≤ s.lineOffset) :
    drift shifts q = q := by
  have hfilter : shifts.filter (fun s => s.lineOffset < q) = [] := by
    rw [List.filter_eq_nil_iff]
    intro s hs
    simpa using h s hs
  rw [drift, hfilter, total_nil, Int.add_zero]

end Shift

namespace LineTable

section Follow

variable {t t' : LineTable} {shifts : List Shift} {g : Nat → Nat}

@[simp] theorem adjustAll_nil (t : LineTable) : t.adjustAll [] = (t, none) := rfl

/-- Changes of size stop at the first that fails. -/
theorem adjustAll_cons (t : LineTable) (s : Shift) (shifts : List Shift) :
    t.adjustAll (s :: shifts) =
      match t.adjust s.lineOffset s.delta with
      | .ok u => u.adjustAll shifts
      | .error fault => (t, some fault) := by
  have hresult : t.adjust s.lineOffset s.delta = (adjustRun s.lineOffset s.delta).result t := rfl
  rw [adjustAll, Program.attempt, adjustRuns, Program.exec_bind, (atomic_adjustRun _ _).exec_eq,
    hresult]
  cases (adjustRun s.lineOffset s.delta).result t <;> rfl

theorem adjustAll_snoc (t : LineTable) (shifts : List Shift) (s : Shift) :
    t.adjustAll (shifts ++ [s]) = (t', none) ↔
      ∃ u, t.adjustAll shifts = (u, none) ∧ u.adjust s.lineOffset s.delta = .ok t' := by
  induction shifts generalizing t with
  | nil =>
    cases hadjust : t.adjust s.lineOffset s.delta with
    | error fault => simp [adjustAll_cons, hadjust]
    | ok u => simp [adjustAll_cons, hadjust]
  | cons first shifts ih =>
    rw [List.cons_append, adjustAll_cons, adjustAll_cons]
    cases t.adjust first.lineOffset first.delta with
    | error fault => simp
    | ok u => exact ih u

/-- Changes by falling line offset that leave every cut behind a change behind its line offset when
they are made one after the other. -/
structure Orderly (t : LineTable) (shifts : List Shift) : Prop where
  falling : shifts.Pairwise fun a b => b.lineOffset ≤ a.lineOffset
  small : ∀ made, made <+: shifts → Shift.drift made t.size < limit32
  behind : ∀ made s, made ++ [s] <+: shifts → ∀ q ∈ t.cuts, s.lineOffset < q →
    s.lineOffset < Shift.drift made q ∧ s.lineOffset < Shift.drift (made ++ [s]) q

theorem Orderly.init {s : Shift} (h : t.Orderly (shifts ++ [s])) : t.Orderly shifts where
  falling := (List.pairwise_append.1 h.falling).1
  small made hmade := h.small made (hmade.trans (List.prefix_append _ _))
  behind made s' hmade := h.behind made s' (hmade.trans (List.prefix_append _ _))

theorem Orderly.le_lineOffset {s : Shift} (h : t.Orderly (shifts ++ [s])) :
    ∀ s' ∈ shifts, s.lineOffset ≤ s'.lineOffset := fun s' hs' =>
  (List.pairwise_append.1 h.falling).2.2 s' hs' s (List.mem_singleton_self s)

theorem Orderly.drift_of_le {s : Shift} (h : t.Orderly (shifts ++ [s])) {q : Nat}
    (hq : q ≤ s.lineOffset) : Shift.drift shifts q = q :=
  Shift.drift_eq_self fun s' hs' => hq.trans (h.le_lineOffset s' hs')

/-- Orderly changes keep the cuts in order. -/
theorem Orderly.drift_lt_drift (h : t.Orderly shifts) {q r : Nat} (hr : r ∈ t.cuts)
    (hqr : q < r) : Shift.drift shifts q < Shift.drift shifts r := by
  induction shifts using List.reverseRecOn with
  | nil => simpa using hqr
  | append_singleton made s ih =>
    -- Only a change between the two cuts can bring them together, and nothing in front of it has
    -- been made yet.
    have hmade := ih h.init
    rw [Shift.drift_snoc, Shift.drift_snoc]
    by_cases hsq : s.lineOffset < q
    · rw [if_pos hsq, if_pos (hsq.trans hqr)]
      omega
    · rw [if_neg hsq]
      by_cases hsr : s.lineOffset < r
      · have hbehind := (h.behind made s (List.prefix_refl _) r hr hsr).2
        have hstay := h.drift_of_le (Nat.le_of_not_lt hsq)
        rw [Shift.drift_snoc] at hbehind
        omega
      · rw [if_neg hsr]
        omega

theorem Orderly.drift_nonneg (h : t.Orderly shifts) {q : Nat} (hq : q ∈ t.cuts) :
    0 ≤ Shift.drift shifts q := by
  rcases Nat.eq_zero_or_pos q with rfl | hpos
  · rw [Shift.drift_zero]
  · have hlt := h.drift_lt_drift hq hpos
    rw [Shift.drift_zero] at hlt
    exact hlt.le

theorem Orderly.keeps (h : t.Orderly shifts) : t.Keeps fun q => (Shift.drift shifts q).toNat where
  zero := by simp
  strictMonoOn q hq r hr hqr := by
    have hlt := h.drift_lt_drift hr hqr
    have hnonneg := h.drift_nonneg hq
    simp only
    omega

theorem Orderly.size_lt (h : t.Orderly shifts) :
    (t.recut fun q => (Shift.drift shifts q).toNat).size < limit32 := by
  have hsmall := h.small shifts (List.prefix_refl _)
  have hnonneg := h.drift_nonneg t.size_mem_cuts
  rw [size_recut h.keeps]
  omega

/-- A change moves the cuts behind it, also when they have been moved by those made before. -/
theorem Orderly.toNat_drift_snoc {s : Shift} (h : t.Orderly (shifts ++ [s])) {q : Nat}
    (hq : q ∈ t.cuts) : ((Shift.drift (shifts ++ [s]) q).toNat : Int) =
      (Shift.drift shifts q).toNat +
        if s.lineOffset < (Shift.drift shifts q).toNat then s.delta else 0 := by
  have hnonneg := h.init.drift_nonneg hq
  have hnonneg' := h.drift_nonneg hq
  have hsame : s.lineOffset < (Shift.drift shifts q).toNat ↔ s.lineOffset < q := by
    by_cases hsq : s.lineOffset < q
    · have hbehind := (h.behind shifts s (List.prefix_refl _) q hq hsq).1
      omega
    · have hstay := h.drift_of_le (Nat.le_of_not_lt hsq)
      omega
  rw [Int.toNat_of_nonneg hnonneg', Int.toNat_of_nonneg hnonneg, Shift.drift_snoc,
    if_congr hsame rfl rfl]

/-- The last of orderly changes finds its cuts where they were before all of them. -/
theorem Orderly.recut_snoc {s : Shift} (h : t.Orderly (shifts ++ [s]))
    (hadjust : (t.recut fun q => (Shift.drift shifts q).toNat).adjust s.lineOffset s.delta =
      .ok t') : t' = t.recut fun q => (Shift.drift (shifts ++ [s]) q).toNat := by
  have hkeeps := h.init.keeps
  -- The cuts that the last change moves, in terms of where those before have moved them.
  have hmoved : ∀ r ∈ (t.recut fun q => (Shift.drift shifts q).toNat).cuts,
      (((r : Int) + if s.lineOffset < r then s.delta else 0).toNat : Int) =
        r + if s.lineOffset < r then s.delta else 0 := by
    intro r hr
    rw [cuts_recut hkeeps] at hr
    obtain ⟨q, hq, rfl⟩ := List.mem_map.1 hr
    have hsnoc := h.toNat_drift_snoc hq
    omega
  have hrecut := recut_of_adjust h.init.size_lt hadjust hmoved
  rw [hrecut, recut_recut hkeeps]
  refine recut_congr fun q hq => ?_
  have hsnoc := h.toNat_drift_snoc hq
  simp only [Function.comp]
  omega

/-- Orderly changes move every cut by the changes in front of it. -/
theorem recut_of_adjustAll (h : t.Orderly shifts) (hadjust : t.adjustAll shifts = (t', none)) :
    t' = t.recut fun q => (Shift.drift shifts q).toNat := by
  induction shifts using List.reverseRecOn generalizing t' with
  | nil =>
    cases hadjust
    simp only [Shift.drift_nil, Int.toNat_natCast]
    exact t.recut_id.symm
  | append_singleton made s ih =>
    obtain ⟨u, hu, hs⟩ := (adjustAll_snoc t made s).1 hadjust
    rw [ih h.init hu] at hs
    exact h.recut_snoc hs

/-- Orderly changes at offsets in the code can be made. -/
theorem exists_adjustAll (h : t.Orderly shifts) (hin : ∀ s ∈ shifts, s.lineOffset < t.size) :
    ∃ t', t.adjustAll shifts = (t', none) := by
  induction shifts using List.reverseRecOn with
  | nil => exact ⟨t, rfl⟩
  | append_singleton made s ih =>
    obtain ⟨u, hu⟩ := ih h.init fun s' hs' => hin s' (List.mem_append_left _ hs')
    have hrecut := recut_of_adjustAll h.init hu
    have hkeeps := h.init.keeps
    have hs := hin s (List.mem_append_right _ (List.mem_singleton_self s))
    have hbehind := h.behind made s (List.prefix_refl _)
    have husize : u.size = (Shift.drift made t.size).toNat := by rw [hrecut, size_recut hkeeps]
    have hulimit : u.size < limit32 := by rw [hrecut]; exact h.init.size_lt
    have hinside := (hbehind t.size t.size_mem_cuts hs).1
    have hlast := h.toNat_drift_snoc t.size_mem_cuts
    have hsmall := h.small _ (List.prefix_refl _)
    have hlt : s.lineOffset < 0 + span u.runs := by
      rw [Nat.zero_add, ← size_eq_span]
      omega
    obtain ⟨pre, run, post, hruns, hle, hrun⟩ := exists_run_of_lt (Nat.zero_le _) hlt
    -- The end of the run is a cut, and the change leaves it behind the offset.
    have hstop : 0 + span pre + run.size ∈ u.cuts := by
      rw [cuts, hruns, mem_cutsFrom_append]
      exact .inr (List.mem_cons_of_mem _ (mem_cutsFrom_self _ post))
    rw [hrecut, cuts_recut hkeeps] at hstop
    obtain ⟨q, hq, hqstop⟩ := List.mem_map.1 hstop
    have hsq : s.lineOffset < q := by
      by_contra hsq
      have hstay := h.drift_of_le (Nat.le_of_not_lt hsq)
      omega
    have hsnoc := h.toNat_drift_snoc hq
    have hafter := (hbehind q hq hsq).2
    rw [if_pos (by omega)] at hsnoc hlast
    have hsum : u.size = span pre + (run.size + span post) := by
      rw [size_eq_span, hruns, span_append, span_cons]
    refine ⟨_, (adjustAll_snoc t made s).2 ⟨u, hu, (adjust_eq_ok_iff hulimit).2
      ⟨pre, run, post, hruns, by omega, by omega, by omega, by omega, rfl⟩⟩⟩

/-! ### The order in which an edit is followed -/

theorem perm_fallingOrder (shifts : List Shift) : (fallingOrder shifts).Perm shifts :=
  List.mergeSort_perm shifts _

@[simp] theorem mem_fallingOrder {s : Shift} {shifts : List Shift} :
    s ∈ fallingOrder shifts ↔ s ∈ shifts :=
  (perm_fallingOrder shifts).mem_iff

/-- Whatever is made last is one of the shifts. -/
theorem mem_of_isPrefix_fallingOrder {s : Shift} {shifts made : List Shift}
    (h : made ++ [s] <+: fallingOrder shifts) : s ∈ shifts :=
  mem_fallingOrder.1 (h.subset (List.mem_append_right _ (List.mem_singleton_self s)))

theorem pairwise_fallingOrder (shifts : List Shift) :
    (fallingOrder shifts).Pairwise fun a b => b.lineOffset ≤ a.lineOffset := by
  have h := @List.pairwise_mergeSort Shift (fun a b => decide (b.lineOffset ≤ a.lineOffset))
    (fun a b c hab hbc => by simp only [decide_eq_true_eq] at *; omega)
    (fun a b => by simp only [Bool.or_eq_true, decide_eq_true_eq]; omega) shifts
  exact h.imp fun hab => of_decide_eq_true hab

theorem followed_eq_ok_iff :
    t.followed shifts = .ok t' ↔ t.adjustAll (fallingOrder shifts) = (t', none) := by
  rw [followed, follow]
  split
  · rename_i u hu
    rw [hu]
    simp
  · rename_i u fault hu
    rw [hu]
    simp

theorem recut_of_followed (h : t.Orderly (fallingOrder shifts)) (hf : t.followed shifts = .ok t')
    (hg : ∀ q ∈ t.cuts, (g q : Int) = Shift.drift shifts q) : t' = t.recut g := by
  rw [recut_of_adjustAll h (followed_eq_ok_iff.1 hf)]
  refine recut_congr fun q hq => ?_
  have hq := hg q hq
  rw [Shift.drift_perm (perm_fallingOrder shifts)]
  omega

theorem keeps_of_orderly (h : t.Orderly (fallingOrder shifts))
    (hg : ∀ q ∈ t.cuts, (g q : Int) = Shift.drift shifts q) : t.Keeps g where
  zero := by
    have hzero := hg 0 t.zero_mem_cuts
    rw [Shift.drift_zero] at hzero
    exact_mod_cast hzero
  strictMonoOn q hq r hr hqr := by
    have hlt := h.drift_lt_drift hr hqr
    rw [Shift.drift_perm (perm_fallingOrder shifts), Shift.drift_perm (perm_fallingOrder shifts),
      ← hg q hq, ← hg r hr] at hlt
    exact_mod_cast hlt

theorem exists_followed (h : t.Orderly (fallingOrder shifts))
    (hin : ∀ s ∈ shifts, s.lineOffset < t.size) : ∃ t', t.followed shifts = .ok t' := by
  obtain ⟨t', ht'⟩ := exists_adjustAll h fun s hs => hin s (mem_fallingOrder.1 hs)
  exact ⟨t', followed_eq_ok_iff.2 ht'⟩

theorem drift_append (a b : List Shift) (q : Nat) :
    Shift.drift (a ++ b) q =
      Shift.drift a q + Shift.total (b.filter fun s => s.lineOffset < q) := by
  rw [Shift.drift, Shift.drift, List.filter_append, Shift.total_append, Int.add_assoc]

/-- Changes by which code only grows are orderly. -/
theorem orderly_of_growing (hgrow : ∀ s ∈ shifts, 0 ≤ s.delta)
    (hsize : Shift.drift shifts t.size < limit32) : t.Orderly (fallingOrder shifts) := by
  have hmem : ∀ s ∈ fallingOrder shifts, 0 ≤ s.delta := fun s hs =>
    hgrow s (mem_fallingOrder.1 hs)
  have hle : ∀ made, made <+: fallingOrder shifts → ∀ q : Nat, (q : Int) ≤ Shift.drift made q := by
    intro made hmade q
    have htotal : 0 ≤ Shift.total (made.filter fun s => s.lineOffset < q) :=
      Shift.total_nonneg fun s hs => hmem s (hmade.subset (List.mem_filter.1 hs).1)
    rw [Shift.drift]
    omega
  refine ⟨pairwise_fallingOrder shifts, fun made hmade => ?_, fun made s hmade q _ hsq => ?_⟩
  · obtain ⟨rest, hrest⟩ := hmade
    have htotal : 0 ≤ Shift.total (rest.filter fun s => s.lineOffset < t.size) :=
      Shift.total_nonneg fun s hs => hmem s (by
        rw [← hrest]
        exact List.mem_append_right _ (List.mem_filter.1 hs).1)
    rw [← Shift.drift_perm (perm_fallingOrder shifts), ← hrest, drift_append] at hsize
    omega
  · have h1 := hle made ((List.prefix_append _ _).trans hmade) q
    have h2 := hle _ hmade q
    omega

/-- While code shrinks, a place comes no nearer to its start than all the changes from the last one
made on would bring it. -/
theorem add_total_le_drift (hshrink : ∀ s ∈ shifts, s.delta ≤ 0) {made : List Shift} {s : Shift}
    (hmade : made ++ [s] <+: fallingOrder shifts) (q : Nat) :
    q + Shift.total
      (shifts.filter fun s' => s.lineOffset ≤ s'.lineOffset ∧ s'.lineOffset < q) ≤
        Shift.drift (made ++ [s]) q := by
  obtain ⟨rest, hrest⟩ := hmade
  have hfalling := pairwise_fallingOrder shifts
  rw [← hrest] at hfalling
  -- The changes made so far have their line offsets at or behind that of the last one.
  have hfrom : ∀ s' ∈ made ++ [s], s.lineOffset ≤ s'.lineOffset := by
    intro s' hs'
    rcases List.mem_append.1 hs' with hs' | hs'
    · exact (List.pairwise_append.1 (List.pairwise_append.1 hfalling).1).2.2 s' hs' s
        (List.mem_singleton_self s)
    · rw [List.mem_singleton.1 hs']
  have hmade : (made ++ [s]).filter (fun s' => s'.lineOffset < q) =
      (made ++ [s]).filter fun s' => s.lineOffset ≤ s'.lineOffset ∧ s'.lineOffset < q := by
    refine List.filter_congr fun s' hs' => ?_
    simp [hfrom s' hs']
  have hrestTotal : Shift.total (rest.filter fun s' =>
      s.lineOffset ≤ s'.lineOffset ∧ s'.lineOffset < q) ≤ 0 :=
    Shift.total_nonpos fun s' hs' => hshrink s' (mem_fallingOrder.1 (by
      rw [← hrest]
      exact List.mem_append_right _ (List.mem_filter.1 hs').1))
  rw [← Shift.total_perm ((perm_fallingOrder shifts).filter _), ← hrest, List.filter_append,
    Shift.total_append, ← hmade, Shift.drift]
  omega

/-- Changes by which code only shrinks are orderly when those from any one of them on leave some
code in front of each cut behind it. -/
theorem orderly_of_shrinking (hshrink : ∀ s ∈ shifts, s.delta ≤ 0) (hsize : t.size < limit32)
    (hleft : ∀ s ∈ shifts, ∀ q ∈ t.cuts, s.lineOffset < q →
      s.lineOffset < q + Shift.total
        (shifts.filter fun s' => s.lineOffset ≤ s'.lineOffset ∧ s'.lineOffset < q)) :
    t.Orderly (fallingOrder shifts) := by
  refine ⟨pairwise_fallingOrder shifts, fun made hmade => ?_, fun made s hmade q hq hsq => ?_⟩
  · have htotal : Shift.total (made.filter fun s => s.lineOffset < t.size) ≤ 0 :=
      Shift.total_nonpos fun s hs =>
        hshrink s (mem_fallingOrder.1 (hmade.subset (List.mem_filter.1 hs).1))
    rw [Shift.drift]
    omega
  · have hs := mem_of_isPrefix_fallingOrder hmade
    have hbehind := hleft s hs q hq hsq
    have hafter := add_total_le_drift hshrink hmade q
    have hlast := hshrink s hs
    have hsnoc := Shift.drift_snoc made s q
    rw [if_pos hsq] at hsnoc
    omega

end Follow

end LineTable

end Tripwire
