import Tripwire.Proofs.LineTable.Recut

/-!
# Line tables with other runs

The same lines can be written with other runs: the bytes of a run can be divided
between two, and the step of a run can be made in two. Look-ups do not tell such
tables apart, wherever the counter stands and however long the code is.

* `LineTable.Alike`: entries that no look-up tells apart;
* `LineTable.Recoded`: the two ways to write runs otherwise, and what they generate;
* `LineTable.recoded_cuts`, `LineTable.recoded_paces`: many cuts of a run, many parts of a step;
* `LineTable.Recoded.alike`: the entries of recoded runs;
* `LineTable.Recoded.size_eq`, `LineTable.Recoded.lineAt?_eq`, `LineTable.Recoded.offsetOfLine_eq`:
  what recoding keeps.
-/

namespace Tripwire.LineTable

/-! ### Entries that look alike -/

/-- Entries that no look-up tells apart. The indices of the runs behind them may differ. -/
structure Alike (es es' : List LineEntry) : Prop where
  line_eq : ∀ offset, (es.find? fun e => e.contains offset).bind LineEntry.line =
    (es'.find? fun e => e.contains offset).bind LineEntry.line
  start_eq : ∀ line : Nat,
    (es.find? fun e => e.line.any fun current => line ≤ current).map LineEntry.start =
      (es'.find? fun e => e.line.any fun current => line ≤ current).map LineEntry.start

namespace Alike

variable {es es' es'' : List LineEntry} {start middle stop index index' index'' : Nat}
  {line : Option Nat}

theorem refl (es : List LineEntry) : Alike es es := ⟨fun _ => rfl, fun _ => rfl⟩

theorem trans (h : Alike es es') (h' : Alike es' es'') : Alike es es'' :=
  ⟨fun offset => (h.line_eq offset).trans (h'.line_eq offset),
    fun line => (h.start_eq line).trans (h'.start_eq line)⟩

theorem cons (h : Alike es es') (start stop : Nat) (line : Option Nat) (index index' : Nat) :
    Alike (⟨start, stop, line, index⟩ :: es) (⟨start, stop, line, index'⟩ :: es') where
  line_eq offset := by
    have htail := h.line_eq offset
    by_cases hin : start ≤ offset ∧ offset < stop
    · simp [LineEntry.contains, hin]
    · simp only [List.find?_cons, LineEntry.contains, decide_eq_false hin] at htail ⊢
      exact htail
  start_eq wanted := by
    have htail := h.start_eq wanted
    simp only [List.find?_cons]
    split
    · rfl
    · exact htail

/-- An entry divided in two. -/
theorem divide (h : Alike es es') (hstart : start ≤ middle) (hstop : middle ≤ stop) :
    Alike (⟨start, stop, line, index⟩ :: es)
      (⟨start, middle, line, index'⟩ :: ⟨middle, stop, line, index''⟩ :: es') where
  line_eq offset := by
    have htail := h.line_eq offset
    by_cases hfront : start ≤ offset ∧ offset < middle
    · have hwhole : start ≤ offset ∧ offset < stop := ⟨hfront.1, hfront.2.trans_le hstop⟩
      simp [LineEntry.contains, hfront, hwhole]
    · by_cases hback : middle ≤ offset ∧ offset < stop
      · have hwhole : start ≤ offset ∧ offset < stop := ⟨hstart.trans hback.1, hback.2⟩
        simp only [List.find?_cons, LineEntry.contains, decide_eq_false hfront,
          decide_eq_true hback, decide_eq_true hwhole]
        rfl
      · have hwhole : ¬ (start ≤ offset ∧ offset < stop) := by omega
        simp only [List.find?_cons, LineEntry.contains, decide_eq_false hfront,
          decide_eq_false hback, decide_eq_false hwhole] at htail ⊢
        exact htail
  start_eq wanted := by
    have htail := h.start_eq wanted
    simp only [List.find?_cons]
    split
    · rfl
    · exact htail

end Alike

/-! ### Recoded runs -/

/-- The same lines written with other runs: the bytes of a run are divided between two, or the step
of a run is made in two. -/
inductive Recoded : List LineRun → List LineRun → Prop
  | refl (runs : List LineRun) : Recoded runs runs
  | trans {a b c : List LineRun} : Recoded a b → Recoded b c → Recoded a c
  | cons {a b : List LineRun} (run : LineRun) : Recoded a b → Recoded (run :: a) (run :: b)
  | cut (first second : Nat) (step : Option Int) (runs : List LineRun) :
      Recoded (⟨first + second, step⟩ :: runs)
        (⟨first, step⟩ :: ⟨second, step.map fun _ => 0⟩ :: runs)
  | pace (size : Nat) (first second : Int) (runs : List LineRun) :
      Recoded (⟨size, some (first + second)⟩ :: runs)
        (⟨0, some first⟩ :: ⟨size, some second⟩ :: runs)

theorem Recoded.append_left (front : List LineRun) {a b : List LineRun} (h : Recoded a b) :
    Recoded (front ++ a) (front ++ b) := by
  induction front with
  | nil => exact h
  | cons run front ih => exact ih.cons run

theorem Recoded.append_right {a b : List LineRun} (h : Recoded a b) (back : List LineRun) :
    Recoded (a ++ back) (b ++ back) := by
  induction h with
  | refl runs => exact .refl _
  | trans _ _ ih ih' => exact ih.trans ih'
  | cons run _ ih => exact ih.cons run
  | cut first second step runs => exact .cut first second step (runs ++ back)
  | pace size first second runs => exact .pace size first second (runs ++ back)

theorem Recoded.append {a a' b b' : List LineRun} (h : Recoded a a') (h' : Recoded b b') :
    Recoded (a ++ b) (a' ++ b') :=
  (h.append_right b).trans (h'.append_left a')

/-- A run can be cut into any number of parts. Only the first one moves the counter. -/
theorem recoded_cuts (step : Option Int) (first : Nat) (sizes : List Nat) :
    Recoded [⟨first + sizes.sum, step⟩]
      (⟨first, step⟩ :: sizes.map fun size => ⟨size, step.map fun _ => 0⟩) := by
  induction sizes generalizing first step with
  | nil => exact .refl _
  | cons size sizes ih =>
    have hrest := (ih (step.map fun _ => 0) size).cons ⟨first, step⟩
    rw [Option.map_map] at hrest
    exact (Recoded.cut first (size + sizes.sum) step []).trans hrest

/-- A step can be made in any number of equal parts and a last one. -/
theorem recoded_paces (size count : Nat) (part last : Int) :
    Recoded [⟨size, some (count * part + last)⟩]
      (List.replicate count ⟨0, some part⟩ ++ [⟨size, some last⟩]) := by
  induction count with
  | zero =>
    rw [Nat.cast_zero, Int.zero_mul, Int.zero_add]
    exact .refl _
  | succ count ih =>
    have hstep : ((count + 1 : Nat) : Int) * part + last = part + (count * part + last) := by
      push_cast
      ring
    rw [hstep]
    exact (Recoded.pace size part (count * part + last) []).trans (ih.cons _)

/-! ### What recoding keeps -/

section Keep

variable {runs runs' : List LineRun} {p : Nat} {counter : Int}

theorem Recoded.span_eq (h : Recoded runs runs') : span runs' = span runs := by
  induction h with
  | refl => rfl
  | trans _ _ ih ih' => rw [ih', ih]
  | cons run _ ih => rw [span_cons, span_cons, ih]
  | cut first second step runs => simp only [span_cons]; omega
  | pace size first second runs => simp only [span_cons]; omega

/-- The look-ups do not depend on the numbers that the runs have. -/
theorem alike_entriesFrom (runs : List LineRun) (p : Nat) (counter : Int) (index index' : Nat) :
    Alike (entriesFrom p counter index runs) (entriesFrom p counter index' runs) := by
  induction runs generalizing p counter index index' with
  | nil => exact .refl _
  | cons run runs ih =>
    rw [entriesFrom, entriesFrom]
    split
    · exact ih ..
    · exact (ih ..).cons ..

/-- A run and its two parts. Either of them may be empty, and then it has no entry. -/
theorem alike_cut (hp : p < limit32) (first second : Nat) (step : Option Int) (index index' : Nat) :
    Alike (entriesFrom p counter index (⟨first + second, step⟩ :: runs))
      (entriesFrom p counter index'
        (⟨first, step⟩ :: ⟨second, step.map fun _ => 0⟩ :: runs)) := by
  have hcounter : counter + step.getD 0 + (step.map fun _ => (0 : Int)).getD 0 =
      counter + step.getD 0 := by
    cases step <;> simp
  have hline : ((step.map fun _ => (0 : Int)).bind fun _ => lineOfCounter (counter + step.getD 0)) =
      step.bind fun _ => lineOfCounter (counter + step.getD 0) := by
    cases step <;> rfl
  have hstop : min (min (p + first) (limit32 - 1) + second) (limit32 - 1) =
      min (p + (first + second)) (limit32 - 1) := by
    omega
  simp only [entriesFrom, hcounter, hline, hstop]
  by_cases hfirst : first = 0
  · subst hfirst
    rw [Nat.zero_add, if_pos rfl]
    split
    · exact alike_entriesFrom ..
    · exact (alike_entriesFrom ..).cons ..
  · rw [if_neg hfirst, if_neg (show ¬ first + second = 0 by omega)]
    by_cases hsecond : second = 0
    · subst hsecond
      rw [if_pos rfl, Nat.add_zero]
      exact (alike_entriesFrom ..).cons ..
    · rw [if_neg hsecond]
      exact (alike_entriesFrom ..).divide (by omega) (by omega)

/-- Recoded runs have entries that look alike. -/
theorem Recoded.alike (h : Recoded runs runs') (hp : p < limit32) (counter : Int)
    (index index' : Nat) :
    Alike (entriesFrom p counter index runs) (entriesFrom p counter index' runs') := by
  induction h generalizing p counter index index' with
  | refl runs => exact alike_entriesFrom ..
  | trans _ _ ih ih' => exact (ih hp counter index index).trans (ih' hp counter index index')
  | cons run _ ih =>
    rw [entriesFrom, entriesFrom]
    split
    · exact ih hp ..
    · have hlimit : 0 < limit32 := by decide
      exact (ih (by omega) ..).cons ..
  | cut first second step runs => exact alike_cut hp ..
  | pace size first second runs =>
    simp only [entriesFrom, if_true, Option.getD_some, Option.bind_some, ← Int.add_assoc]
    split
    · exact alike_entriesFrom ..
    · exact (alike_entriesFrom ..).cons ..

variable {firstLine : Nat}

theorem Recoded.size_eq (h : Recoded runs runs') : size ⟨firstLine, runs'⟩ = size ⟨firstLine, runs⟩ :=
  h.span_eq

/-- Recoding keeps the line of every offset. -/
theorem Recoded.lineAt?_eq (h : Recoded runs runs') (offset : Nat) :
    lineAt? ⟨firstLine, runs'⟩ offset = lineAt? ⟨firstLine, runs⟩ offset := by
  have hlimit : 0 < limit32 := by decide
  exact ((h.alike hlimit firstLine 0 0).line_eq offset).symm

/-- Recoding keeps the offset to which a line resolves. -/
theorem Recoded.offsetOfLine_eq (h : Recoded runs runs') (line : Nat) :
    offsetOfLine ⟨firstLine, runs'⟩ line = offsetOfLine ⟨firstLine, runs⟩ line := by
  have hlimit : 0 < limit32 := by decide
  have hstart := (h.alike hlimit firstLine 0 0).start_eq line
  simp only [offsetOfLine, entries]
  cases hfind : (entriesFrom 0 firstLine 0 runs).find?
      fun e => e.line.any fun current => line ≤ current with
  | none =>
    rw [hfind, Option.map_none, eq_comm, Option.map_eq_none_iff] at hstart
    rw [hstart]
  | some e =>
    rw [hfind, Option.map_some, eq_comm, Option.map_eq_some_iff] at hstart
    obtain ⟨e', he', hsame⟩ := hstart
    rw [he']
    simp only [hsame]

end Keep

end Tripwire.LineTable
