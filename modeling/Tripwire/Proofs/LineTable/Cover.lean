import Tripwire.Proofs.LineTable.Recut

/-!
# The entries of a line table that cover an offset

Entries begin and end at cuts and do not overlap. When the cuts move, an offset
that lies between the same cuts as before has the same line as before.

* `LineTable.stop_of_mem_entries`, `LineTable.pairwise_entries`: entries lie one behind the other;
* `LineTable.find?_of_contains`, `LineTable.find?_start_of_mem_entries`: the entry that covers an
  offset, such as its own start;
* `LineTable.find?_recut`, `LineTable.lineAt?_recut`: the look-up between moved cuts;
* `LineTable.entryOfLine?`: the entry to which a line resolves, and its look-up.
-/

namespace Tripwire

namespace LineTable

section Runs

variable {p : Nat} {runs : List LineRun} {e : LineEntry} {counter : Int} {index : Nat}

/-- An entry covers bytes and ends at a cut. -/
theorem stop_of_mem_entriesFrom (hsize : p + span runs < limit32)
    (he : e ∈ entriesFrom p counter index runs) : e.stop ∈ cutsFrom p runs ∧ e.start < e.stop := by
  induction runs generalizing p counter index with
  | nil => cases he
  | cons run runs ih =>
    rw [span_cons, ← Nat.add_assoc] at hsize
    rw [entriesFrom] at he
    by_cases hempty : run.size = 0
    · simp only [if_pos hempty] at he
      rw [hempty, Nat.add_zero] at hsize
      obtain ⟨hmem, hlt⟩ := ih hsize he
      rw [cutsFrom, hempty, Nat.add_zero]
      exact ⟨List.mem_cons_of_mem _ hmem, hlt⟩
    · have hstop : min (p + run.size) (limit32 - 1) = p + run.size := by omega
      simp only [if_neg hempty, hstop] at he
      rcases List.mem_cons.1 he with rfl | he
      · refine ⟨List.mem_cons_of_mem _ (mem_cutsFrom_self ..), ?_⟩
        show p < p + run.size
        omega
      · obtain ⟨hmem, hlt⟩ := ih hsize he
        exact ⟨List.mem_cons_of_mem _ hmem, hlt⟩

/-- Every entry ends where the next one begins, or before. -/
theorem pairwise_entriesFrom (hsize : p + span runs < limit32) (counter : Int) (index : Nat) :
    (entriesFrom p counter index runs).Pairwise fun e e' => e.stop ≤ e'.start := by
  induction runs generalizing p counter index with
  | nil => exact List.Pairwise.nil
  | cons run runs ih =>
    rw [span_cons, ← Nat.add_assoc] at hsize
    rw [entriesFrom]
    by_cases hempty : run.size = 0
    · simp only [if_pos hempty]
      rw [hempty, Nat.add_zero] at hsize
      exact ih hsize _ _
    · have hstop : min (p + run.size) (limit32 - 1) = p + run.size := by omega
      simp only [if_neg hempty, hstop]
      refine List.pairwise_cons.2 ⟨?_, ih hsize _ _⟩
      intro e he
      exact (le_of_mem_cutsFrom (start_of_mem_entriesFrom hsize he).1).1

end Runs

section Table

variable {t : LineTable} {e : LineEntry} {g : Nat → Nat} {p q : Nat}

theorem stop_of_mem_entries (hsize : t.size < limit32) (he : e ∈ t.entries) :
    e.stop ∈ t.cuts ∧ e.start < e.stop := by
  rw [size_eq_span, ← Nat.zero_add (span t.runs)] at hsize
  exact stop_of_mem_entriesFrom hsize he

theorem pairwise_entries (hsize : t.size < limit32) :
    t.entries.Pairwise fun e e' => e.stop ≤ e'.start := by
  rw [size_eq_span, ← Nat.zero_add (span t.runs)] at hsize
  exact pairwise_entriesFrom hsize _ _

/-- No other entry covers an offset. -/
theorem find?_of_contains {offset : Nat} (hsize : t.size < limit32) (he : e ∈ t.entries)
    (hcontains : e.contains offset = true) :
    t.entries.find? (fun other => other.contains offset) = some e := by
  obtain ⟨before, after, hentries⟩ := List.append_of_mem he
  have hpairwise := pairwise_entries hsize
  rw [hentries, List.pairwise_append] at hpairwise
  rw [List.find?_eq_some_iff_append]
  refine ⟨hcontains, before, after, hentries, ?_⟩
  intro other hother
  have hbehind := hpairwise.2.2 other hother e (List.mem_cons_self ..)
  simp only [LineEntry.contains, decide_eq_true_eq] at hcontains
  simp only [LineEntry.contains, Bool.not_eq_true', decide_eq_false_iff_not]
  omega

/-- The entry that covers the start of an entry is that entry. -/
theorem find?_start_of_mem_entries (hsize : t.size < limit32) (he : e ∈ t.entries) :
    t.entries.find? (fun other => other.contains e.start) = some e :=
  find?_of_contains hsize he (decide_eq_true ⟨le_rfl, (stop_of_mem_entries hsize he).2⟩)

/-- An offset that lies between the moved cuts as another one lies between the old ones is covered
by the moved entry. -/
theorem find?_recut (h : t.Keeps g) (hsize : t.size < limit32) (hsize' : g t.size < limit32)
    (hcuts : ∀ c ∈ t.cuts, g c ≤ p ↔ c ≤ q) :
    (t.recut g).entries.find? (fun e => e.contains p) =
      (t.entries.find? fun e => e.contains q).map (LineEntry.moved g) := by
  rw [entries_recut h hsize hsize', List.find?_map]
  congr 1
  apply List.find?_congr
  intro e he
  have hstart := hcuts e.start (start_of_mem_entries hsize he).1
  have hstop := hcuts e.stop (stop_of_mem_entries hsize he).1
  show decide (g e.start ≤ p ∧ p < g e.stop) = decide (e.start ≤ q ∧ q < e.stop)
  rw [decide_eq_decide, hstart, ← Nat.not_le, hstop, Nat.not_le]

/-- Lines stay with the bytes between the cuts. -/
theorem lineAt?_recut (h : t.Keeps g) (hsize : t.size < limit32) (hsize' : g t.size < limit32)
    (hcuts : ∀ c ∈ t.cuts, g c ≤ p ↔ c ≤ q) : (t.recut g).lineAt? p = t.lineAt? q := by
  rw [lineAt?, lineAt?, find?_recut h hsize hsize' hcuts, Option.bind_map]
  rfl

/-- Offsets that lie between the same cuts have the same line. -/
theorem lineAt?_congr (hsize : t.size < limit32) (hcuts : ∀ c ∈ t.cuts, c ≤ p ↔ c ≤ q) :
    t.lineAt? p = t.lineAt? q := by
  have hkeeps : t.Keeps id := ⟨rfl, strictMono_id.strictMonoOn _⟩
  have hrecut := lineAt?_recut hkeeps hsize hsize hcuts
  rwa [recut_id] at hrecut

/-! ### The entry of a line -/

/-- The first entry whose line is `line` or a later one. -/
def entryOfLine? (t : LineTable) (line : Nat) : Option LineEntry :=
  t.entries.find? fun e => e.line.any fun current => line ≤ current

theorem offsetOfLine_eq_ok_iff {line offset : Nat} :
    t.offsetOfLine line = .ok offset ↔ ∃ e, t.entryOfLine? line = some e ∧ e.start = offset := by
  rw [offsetOfLine, entryOfLine?]
  cases t.entries.find? fun e => e.line.any fun current => line ≤ current <;> simp

theorem offsetOfLine_of_entryOfLine?_eq_none {line : Nat} (h : t.entryOfLine? line = none) :
    t.offsetOfLine line = .error (.lineNotFound line) := by
  rw [entryOfLine?] at h
  rw [offsetOfLine, h]

theorem entryOfLine?_recut (h : t.Keeps g) (hsize : t.size < limit32) (hsize' : g t.size < limit32)
    (line : Nat) :
    (t.recut g).entryOfLine? line = (t.entryOfLine? line).map (LineEntry.moved g) := by
  rw [entryOfLine?, entries_recut h hsize hsize', List.find?_map]
  rfl

end Table

end LineTable

end Tripwire
