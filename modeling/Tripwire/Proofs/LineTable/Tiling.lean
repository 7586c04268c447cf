import Tripwire.Proofs.LineTable.Recut

/-!
# Entries of a line table lie end to end

The first entry begins at the first byte, and every other one where the one in front of
it ends. So the entry that covers an offset is the last one that has begun there, and
whoever goes through the entries in order can tell the line without looking for the end
of an entry.

* `LineTable.Tiles`: entries that lie end to end, with `LineTable.tiles_append`;
* `LineTable.tiles_entries`: those of a table, up to the limit of offsets;
* `LineTable.exists_last_begun`: the last entry that has begun at an offset.
-/

namespace Tripwire.LineTable

/-- Entries that lie end to end, the last one up to `q`. -/
def Tiles (q : Nat) : Nat → List LineEntry → Prop
  | p, [] => p = q
  | p, e :: entries => e.start = p ∧ e.start ≤ e.stop ∧ Tiles q e.stop entries

section Tiles

variable {p q : Nat} {a b entries : List LineEntry} {e : LineEntry}

theorem tiles_append : Tiles q p (a ++ b) ↔ ∃ m, Tiles m p a ∧ Tiles q m b := by
  induction a generalizing p with
  | nil => simp [Tiles]
  | cons e a ih =>
    rw [List.cons_append, Tiles, ih]
    simp only [Tiles]
    constructor
    · rintro ⟨hstart, hle, m, ha, hb⟩
      exact ⟨m, ⟨hstart, hle, ha⟩, hb⟩
    · rintro ⟨m, ⟨hstart, hle, ha⟩, hb⟩
      exact ⟨hstart, hle, m, ha, hb⟩

theorem Tiles.le (h : Tiles q p entries) : p ≤ q := by
  induction entries generalizing p with
  | nil => exact h.le
  | cons e entries ih =>
    obtain ⟨rfl, hle, htail⟩ := h
    exact hle.trans (ih htail)

theorem Tiles.stop_le (h : Tiles q p entries) (he : e ∈ entries) : e.stop ≤ q := by
  induction entries generalizing p with
  | nil => cases he
  | cons e' entries ih =>
    obtain ⟨-, -, htail⟩ := h
    rcases List.mem_cons.1 he with rfl | he
    · exact htail.le
    · exact ih htail he

end Tiles

variable {t : LineTable} {runs : List LineRun} {p o : Nat} {begun rest : List LineEntry}

theorem tiles_entriesFrom (hp : p ≤ limit32 - 1) (counter : Int) (index : Nat) :
    Tiles (min (p + span runs) (limit32 - 1)) p (entriesFrom p counter index runs) := by
  induction runs generalizing p counter index with
  | nil => exact (min_eq_left hp).symm
  | cons run runs ih =>
    rw [entriesFrom, span_cons]
    by_cases hempty : run.size = 0
    · simp only [hempty, Nat.zero_add]
      exact ih hp _ _
    · simp only [if_neg hempty]
      have hstop : p ≤ min (p + run.size) (limit32 - 1) := le_min (Nat.le_add_right ..) hp
      refine ⟨rfl, hstop, ?_⟩
      have hend : min (min (p + run.size) (limit32 - 1) + span runs) (limit32 - 1) =
          min (p + (run.size + span runs)) (limit32 - 1) := by omega
      rw [← hend]
      exact ih (min_le_right _ _) _ _

/-- The entries of a table lie end to end, as far as offsets go. -/
theorem tiles_entries (t : LineTable) : Tiles (min t.size (limit32 - 1)) 0 t.entries := by
  have htiles : Tiles (min (0 + span t.runs) (limit32 - 1)) 0 t.entries :=
    tiles_entriesFrom (Nat.zero_le _) t.firstLine 0
  rwa [Nat.zero_add] at htiles

/-- Some entry has begun at each offset that the table covers, and the last one that has covers the
offset. -/
theorem exists_last_begun (hentries : t.entries = begun ++ rest) (hbegun : ∀ e ∈ begun, e.start ≤ o)
    (hrest : ∀ e ∈ rest.head?, o < e.start) (hsize : o < t.size) (hlimit : o < limit32 - 1) :
    ∃ e, begun.getLast? = some e ∧ t.lineAt? o = e.line := by
  have htiles := t.tiles_entries
  rw [hentries, tiles_append] at htiles
  obtain ⟨m, hfront, hback⟩ := htiles
  -- The entries that have begun end where the first one that has not begins, or with the table.
  have hm : o < m := by
    cases rest with
    | nil =>
      obtain rfl := hback
      exact lt_min hsize hlimit
    | cons e rest =>
      obtain ⟨rfl, -, -⟩ := hback
      exact hrest e rfl
  rcases List.eq_nil_or_concat' begun with rfl | ⟨init, e, rfl⟩
  · obtain rfl := hfront
    exact absurd hm (Nat.not_lt_zero o)
  · obtain ⟨k, hinit, rfl, -, rfl⟩ := tiles_append.1 hfront
    have hstart : e.start ≤ o := hbegun e (by simp)
    have hbefore : init.find? (fun e => e.contains o) = none := by
      rw [List.find?_eq_none]
      intro e' he' hcontains
      have hstop := hinit.stop_le he'
      simp only [LineEntry.contains, decide_eq_true_eq] at hcontains
      omega
    have hcovers : e.contains o = true := decide_eq_true ⟨hstart, hm⟩
    refine ⟨e, by simp, ?_⟩
    rw [lineAt?, hentries, List.find?_append, List.find?_append, hbefore]
    simp [hcovers]

end Tripwire.LineTable
