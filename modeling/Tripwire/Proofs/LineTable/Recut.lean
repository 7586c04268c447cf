import Tripwire.LineTable
import Tripwire.Proofs.Outcome
import Mathlib.Order.Monotone.Defs

/-!
# Line tables with moved cuts

A line table cuts the code into runs. When the cuts move without any run that
covers bytes vanishing, every entry keeps its line and its run, and look-ups by
line find the place to which the cut has moved.

* `LineTable.cuts`: the offsets at which runs begin and end;
* `LineTable.recut`: the table with its cuts moved by a function;
* `LineTable.recut_recut`, `LineTable.size_recut`, `LineTable.cuts_recut`: its shape;
* `LineTable.entries_recut`, `LineTable.offsetOfLine_recut`: its entries and look-ups;
* `LineTable.eq_size_or_exists_entry`: cuts are where entries start, but for the last.
-/

namespace Tripwire

/-- The entry with its bounds moved. -/
def LineEntry.moved (g : Nat → Nat) (e : LineEntry) : LineEntry :=
  { e with start := g e.start, stop := g e.stop }

namespace LineTable

/-- The number of bytes that some runs cover. -/
def span (runs : List LineRun) : Nat := runs.foldr (fun run sum => run.size + sum) 0

/-- The cuts of runs that begin at `p`. -/
def cutsFrom (p : Nat) : List LineRun → List Nat
  | [] => [p]
  | run :: runs => p :: cutsFrom (p + run.size) runs

/-- The offsets at which runs begin and end. -/
def cuts (t : LineTable) : List Nat := cutsFrom 0 t.runs

/-- Runs that begin at `p`, with their cuts moved by `g`. -/
def recutFrom (g : Nat → Nat) (p : Nat) : List LineRun → List LineRun
  | [] => []
  | run :: runs => ⟨g (p + run.size) - g p, run.step⟩ :: recutFrom g (p + run.size) runs

/-- The table with its cuts moved by `g`. -/
def recut (t : LineTable) (g : Nat → Nat) : LineTable := ⟨t.firstLine, recutFrom g 0 t.runs⟩

section Runs

variable {g g' : Nat → Nat} {p q : Nat} {runs : List LineRun}

@[simp] theorem span_nil : span [] = 0 := rfl

@[simp] theorem span_cons (run : LineRun) (runs : List LineRun) :
    span (run :: runs) = run.size + span runs := rfl

@[simp] theorem span_append (a b : List LineRun) : span (a ++ b) = span a + span b := by
  induction a with
  | nil => simp
  | cons run a ih => rw [List.cons_append, span_cons, ih, span_cons, Nat.add_assoc]

theorem size_eq_span (t : LineTable) : t.size = span t.runs := rfl

theorem mem_cutsFrom_self (p : Nat) (runs : List LineRun) : p ∈ cutsFrom p runs := by
  cases runs <;> simp [cutsFrom]

theorem add_span_mem_cutsFrom (p : Nat) (runs : List LineRun) :
    p + span runs ∈ cutsFrom p runs := by
  induction runs generalizing p with
  | nil => simp [cutsFrom]
  | cons run runs ih =>
    rw [span_cons, ← Nat.add_assoc]
    exact List.mem_cons_of_mem _ (ih (p + run.size))

theorem le_of_mem_cutsFrom (h : q ∈ cutsFrom p runs) : p ≤ q ∧ q ≤ p + span runs := by
  induction runs generalizing p with
  | nil =>
    rw [List.mem_singleton.1 h]
    exact ⟨le_rfl, le_rfl⟩
  | cons run runs ih =>
    rw [span_cons]
    rcases List.mem_cons.1 h with rfl | h
    · omega
    · have := ih h
      omega

/-- Runs that begin further on have their cuts as much further on. -/
theorem add_mem_cutsFrom_add {d : Nat} : q + d ∈ cutsFrom (p + d) runs ↔ q ∈ cutsFrom p runs := by
  induction runs generalizing p with
  | nil => simp [cutsFrom]
  | cons run runs ih =>
    rw [cutsFrom, cutsFrom, List.mem_cons, List.mem_cons, Nat.add_right_cancel_iff,
      Nat.add_right_comm, ih]

theorem recutFrom_congr (h : ∀ q ∈ cutsFrom p runs, g q = g' q) :
    recutFrom g p runs = recutFrom g' p runs := by
  induction runs generalizing p with
  | nil => rfl
  | cons run runs ih =>
    have hhead := h p (mem_cutsFrom_self p _)
    have htail : ∀ q ∈ cutsFrom (p + run.size) runs, g q = g' q := fun q hq =>
      h q (List.mem_cons_of_mem _ hq)
    rw [recutFrom, recutFrom, ih htail, hhead, htail _ (mem_cutsFrom_self _ _)]

theorem recutFrom_id (p : Nat) (runs : List LineRun) : recutFrom id p runs = runs := by
  induction runs generalizing p with
  | nil => rfl
  | cons run runs ih => simp [recutFrom, ih]

theorem recutFrom_append (a b : List LineRun) :
    recutFrom g p (a ++ b) = recutFrom g p a ++ recutFrom g (p + span a) b := by
  induction a generalizing p with
  | nil => simp [recutFrom]
  | cons run a ih =>
    rw [List.cons_append, recutFrom, ih, recutFrom, List.cons_append, span_cons, Nat.add_assoc]

/-- Cuts that keep their order keep it behind the first run. -/
theorem strictMonoOn_tail {run : LineRun} (h : StrictMonoOn g {q | q ∈ cutsFrom p (run :: runs)}) :
    StrictMonoOn g {q | q ∈ cutsFrom (p + run.size) runs} :=
  h.mono fun _ hq => List.mem_cons_of_mem _ hq

theorem le_of_strictMonoOn {run : LineRun}
    (h : StrictMonoOn g {q | q ∈ cutsFrom p (run :: runs)}) : g p ≤ g (p + run.size) :=
  h.monotoneOn (mem_cutsFrom_self p _)
    (List.mem_cons_of_mem _ (mem_cutsFrom_self (p + run.size) runs)) (Nat.le_add_right _ _)

theorem span_recutFrom (h : StrictMonoOn g {q | q ∈ cutsFrom p runs}) :
    g p + span (recutFrom g p runs) = g (p + span runs) := by
  induction runs generalizing p with
  | nil => simp [recutFrom]
  | cons run runs ih =>
    have hle := le_of_strictMonoOn h
    have htail := ih (strictMonoOn_tail h)
    rw [recutFrom, span_cons, span_cons, ← Nat.add_assoc p, ← htail]
    simp only
    omega

theorem cutsFrom_recutFrom (h : StrictMonoOn g {q | q ∈ cutsFrom p runs}) :
    cutsFrom (g p) (recutFrom g p runs) = (cutsFrom p runs).map g := by
  induction runs generalizing p with
  | nil => rfl
  | cons run runs ih =>
    have hle := le_of_strictMonoOn h
    rw [recutFrom, cutsFrom, cutsFrom, List.map_cons, ← ih (strictMonoOn_tail h)]
    congr 2
    simp only
    omega

theorem recutFrom_recutFrom (h : StrictMonoOn g {q | q ∈ cutsFrom p runs}) :
    recutFrom g' (g p) (recutFrom g p runs) = recutFrom (g' ∘ g) p runs := by
  induction runs generalizing p with
  | nil => rfl
  | cons run runs ih =>
    have hle := le_of_strictMonoOn h
    have hnext : g p + (g (p + run.size) - g p) = g (p + run.size) := by omega
    rw [recutFrom, recutFrom, recutFrom, hnext, ih (strictMonoOn_tail h)]
    rfl

/-- Below the 32-bit limit the entries of runs with moved cuts are the moved entries. -/
theorem entriesFrom_recutFrom (h : StrictMonoOn g {q | q ∈ cutsFrom p runs})
    (hsize : p + span runs < limit32) (hsize' : g (p + span runs) < limit32) (counter : Int)
    (index : Nat) :
    entriesFrom (g p) counter index (recutFrom g p runs) =
      (entriesFrom p counter index runs).map (LineEntry.moved g) := by
  induction runs generalizing p counter index with
  | nil => rfl
  | cons run runs ih =>
    have hle := le_of_strictMonoOn h
    rw [span_cons, ← Nat.add_assoc] at hsize hsize'
    have htail := ih (strictMonoOn_tail h) hsize hsize'
    have hmono : g (p + run.size) ≤ g (p + run.size + span runs) :=
      (strictMonoOn_tail h).monotoneOn (mem_cutsFrom_self _ _) (add_span_mem_cutsFrom _ _)
        (Nat.le_add_right _ _)
    rw [recutFrom, entriesFrom, entriesFrom]
    by_cases hempty : run.size = 0
    · have hempty' : g (p + run.size) - g p = 0 := by rw [hempty]; simp
      simp only [if_pos hempty, if_pos hempty']
      have hsame : p + run.size = p := by omega
      rw [hsame] at htail
      rw [hsame]
      exact htail _ _
    · have hlt : g p < g (p + run.size) :=
        h (mem_cutsFrom_self p _) (List.mem_cons_of_mem _ (mem_cutsFrom_self _ _)) (by omega)
      have hnonempty : ¬ g (p + run.size) - g p = 0 := by omega
      have hstop : min (p + run.size) (limit32 - 1) = p + run.size := by omega
      have hstop' : min (g p + (g (p + run.size) - g p)) (limit32 - 1) = g (p + run.size) := by
        omega
      simp only [if_neg hempty, if_neg hnonempty, hstop, hstop', List.map_cons, LineEntry.moved]
      rw [htail]

/-- An entry begins at a cut, in front of the end. -/
theorem start_of_mem_entriesFrom {e : LineEntry} {counter : Int} {index : Nat}
    (hsize : p + span runs < limit32) (he : e ∈ entriesFrom p counter index runs) :
    e.start ∈ cutsFrom p runs ∧ e.start < p + span runs := by
  induction runs generalizing p counter index with
  | nil => cases he
  | cons run runs ih =>
    rw [span_cons, ← Nat.add_assoc] at hsize ⊢
    rw [entriesFrom] at he
    by_cases hempty : run.size = 0
    · simp only [if_pos hempty] at he
      have hhead : p + run.size = p := by omega
      rw [hhead] at hsize ⊢
      obtain ⟨hmem, hlt⟩ := ih hsize he
      refine ⟨?_, hlt⟩
      rw [cutsFrom, hhead]
      exact List.mem_cons_of_mem _ hmem
    · have hstop : min (p + run.size) (limit32 - 1) = p + run.size := by omega
      simp only [if_neg hempty, hstop] at he
      rcases List.mem_cons.1 he with rfl | he
      · refine ⟨mem_cutsFrom_self p _, ?_⟩
        show p < _
        omega
      · obtain ⟨hmem, hlt⟩ := ih hsize he
        exact ⟨List.mem_cons_of_mem _ hmem, hlt⟩

/-- Cuts are where entries start, but for the last one. -/
theorem eq_add_span_or_exists_entry (hsize : p + span runs < limit32) (hq : q ∈ cutsFrom p runs)
    (counter : Int) (index : Nat) :
    q = p + span runs ∨ ∃ e ∈ entriesFrom p counter index runs, e.start = q := by
  induction runs generalizing p counter index with
  | nil =>
    rw [List.mem_singleton.1 hq]
    exact .inl rfl
  | cons run runs ih =>
    rw [span_cons, ← Nat.add_assoc] at hsize ⊢
    rw [entriesFrom]
    by_cases hempty : run.size = 0
    · have hq' : q ∈ cutsFrom (p + run.size) runs := by
        rcases List.mem_cons.1 hq with rfl | hq
        · rw [hempty]
          exact mem_cutsFrom_self _ _
        · exact hq
      have htail := ih hsize hq' (counter + run.step.getD 0) (index + 1)
      simp only [if_pos hempty]
      rw [hempty] at htail ⊢
      exact htail
    · have hstop : min (p + run.size) (limit32 - 1) = p + run.size := by omega
      simp only [if_neg hempty, hstop]
      rcases List.mem_cons.1 hq with rfl | hq
      · exact .inr ⟨_, List.mem_cons_self .., rfl⟩
      · rcases ih hsize hq (counter + run.step.getD 0) (index + 1) with heq | ⟨e, he, heq⟩
        · exact .inl heq
        · exact .inr ⟨e, List.mem_cons_of_mem _ he, heq⟩

end Runs

section Table

variable {t : LineTable} {g g' : Nat → Nat} {q : Nat}

/-- The moved cuts begin at zero and keep their order. -/
structure Keeps (t : LineTable) (g : Nat → Nat) : Prop where
  zero : g 0 = 0
  strictMonoOn : StrictMonoOn g {q | q ∈ t.cuts}

theorem zero_mem_cuts (t : LineTable) : 0 ∈ t.cuts := mem_cutsFrom_self 0 t.runs

theorem size_mem_cuts (t : LineTable) : t.size ∈ t.cuts := by
  have h := add_span_mem_cutsFrom 0 t.runs
  rwa [Nat.zero_add] at h

theorem recut_congr (h : ∀ q ∈ t.cuts, g q = g' q) : t.recut g = t.recut g' := by
  rw [recut, recut, recutFrom_congr h]

theorem recut_id (t : LineTable) : t.recut id = t := by
  rw [recut, recutFrom_id]

theorem size_recut (h : t.Keeps g) : (t.recut g).size = g t.size := by
  have hspan := span_recutFrom h.strictMonoOn
  rw [h.zero, Nat.zero_add, Nat.zero_add] at hspan
  exact hspan

theorem cuts_recut (h : t.Keeps g) : (t.recut g).cuts = t.cuts.map g := by
  have hcuts := cutsFrom_recutFrom h.strictMonoOn
  rw [h.zero] at hcuts
  exact hcuts

theorem recut_recut (h : t.Keeps g) : (t.recut g).recut g' = t.recut (g' ∘ g) := by
  have hruns : recutFrom g' (g 0) (recutFrom g 0 t.runs) = recutFrom (g' ∘ g) 0 t.runs :=
    recutFrom_recutFrom h.strictMonoOn
  rw [h.zero] at hruns
  rw [recut, recut, recut, hruns]

theorem Keeps.comp (h : t.Keeps g) (h' : (t.recut g).Keeps g') : t.Keeps (g' ∘ g) where
  zero := by rw [Function.comp, h.zero, h'.zero]
  strictMonoOn q hq r hr hqr := by
    have hmem : ∀ q ∈ t.cuts, g q ∈ (t.recut g).cuts := fun q hq => by
      rw [cuts_recut h]
      exact List.mem_map_of_mem hq
    exact h'.strictMonoOn (hmem q hq) (hmem r hr) (h.strictMonoOn hq hr hqr)

theorem entries_recut (h : t.Keeps g) (hsize : t.size < limit32) (hsize' : g t.size < limit32) :
    (t.recut g).entries = t.entries.map (LineEntry.moved g) := by
  rw [size_eq_span, ← Nat.zero_add (span t.runs)] at hsize hsize'
  have hentries := entriesFrom_recutFrom h.strictMonoOn hsize hsize' t.firstLine 0
  rw [h.zero] at hentries
  exact hentries

/-- Look-ups by line find the place to which the start of the entry has moved. -/
theorem offsetOfLine_recut (h : t.Keeps g) (hsize : t.size < limit32) (hsize' : g t.size < limit32)
    (line : Nat) : (t.recut g).offsetOfLine line = (t.offsetOfLine line).map g := by
  rw [offsetOfLine, offsetOfLine, entries_recut h hsize hsize', List.find?_map]
  have hline : (fun e : LineEntry => e.line.any fun current => decide (line ≤ current)) ∘
      LineEntry.moved g = fun e => e.line.any fun current => decide (line ≤ current) := rfl
  rw [hline]
  cases t.entries.find? fun e => e.line.any fun current => decide (line ≤ current) with
  | none => rfl
  | some e => rfl

theorem start_of_mem_entries {e : LineEntry} (hsize : t.size < limit32) (he : e ∈ t.entries) :
    e.start ∈ t.cuts ∧ e.start < t.size := by
  rw [size_eq_span, ← Nat.zero_add (span t.runs)] at hsize ⊢
  exact start_of_mem_entriesFrom hsize he

theorem eq_size_or_exists_entry (hsize : t.size < limit32) (hq : q ∈ t.cuts) :
    q = t.size ∨ ∃ e ∈ t.entries, e.start = q := by
  rw [size_eq_span, ← Nat.zero_add (span t.runs)] at hsize
  have h := eq_add_span_or_exists_entry hsize hq t.firstLine 0
  rwa [Nat.zero_add] at h

end Table

end LineTable

end Tripwire
