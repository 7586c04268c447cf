import Mathlib.Order.Bounds.Basic
import Tripwire.Proofs.LineTable.Cover
import Tripwire.Proofs.LineTable.Expand
import Tripwire.Proofs.LineTable.Tiling

/-!
# The look-ups of a line table

Entries tile the code, so every offset of it is covered by one of them and no other offset
is. The look-up of a line stops at the first entry with that line or a later one. No entry
in front of it has such a line, and so no offset in front of its start has: the look-ups by
line and by offset agree, in whatever order the lines come.

* `LineTable.Tiles.exists_contains`: an offset among entries that tile a range;
* `LineTable.entryAt_eq_ok_iff`, `LineTable.entryAt_of_size_le`: the look-up of an offset;
* `LineTable.offsetsOfLine`: the offsets of a line or a later one, with
  `LineTable.mem_offsetsOfLine_iff`;
* `LineTable.isLeast_of_entryOfLine?`, `LineTable.offsetsOfLine_eq_empty_iff`: the look-up of a
  line;
* `LineTable.lookUp_spec`: entries and look-ups of a table.
-/

namespace Tripwire.LineTable

variable {t : LineTable} {e : LineEntry} {entries : List LineEntry} {p q offset line : Nat}

/-! ### Offsets -/

theorem Tiles.exists_contains (h : Tiles q p entries) (hp : p ≤ offset) (hq : offset < q) :
    ∃ e ∈ entries, e.contains offset = true := by
  induction entries generalizing p with
  | nil =>
    obtain rfl := h
    omega
  | cons e entries ih =>
    obtain ⟨rfl, -, htail⟩ := h
    by_cases hstop : offset < e.stop
    · exact ⟨e, List.mem_cons_self .., decide_eq_true ⟨hp, hstop⟩⟩
    · obtain ⟨e', he', hcontains⟩ := ih htail (Nat.le_of_not_lt hstop)
      exact ⟨e', List.mem_cons_of_mem _ he', hcontains⟩

/-- The entries tile the range that the table covers. -/
theorem tiles_size (hsize : t.size < limit32) : Tiles t.size 0 t.entries := by
  have htiles := t.tiles_entries
  rwa [min_eq_left (by omega)] at htiles

theorem find?_contains_eq_some_iff (hsize : t.size < limit32) :
    (t.entries.find? fun e => e.contains offset) = some e ↔
      e ∈ t.entries ∧ e.contains offset = true := by
  constructor
  · intro hfind
    have hcontains := List.find?_some hfind
    exact ⟨List.mem_of_find?_eq_some hfind, hcontains⟩
  · rintro ⟨he, hcontains⟩
    exact find?_of_contains hsize he hcontains

theorem entryAt_eq_ok_iff (hsize : t.size < limit32) :
    t.entryAt offset = .ok e ↔ e ∈ t.entries ∧ e.start ≤ offset ∧ offset < e.stop := by
  have hcontains : e.contains offset = true ↔ e.start ≤ offset ∧ offset < e.stop :=
    decide_eq_true_iff
  rw [← hcontains, ← find?_contains_eq_some_iff hsize, entryAt]
  cases t.entries.find? fun e => e.contains offset <;> simp

theorem entryAt_of_size_le (hsize : t.size < limit32) (h : t.size ≤ offset) :
    t.entryAt offset = .error (.offsetNotFound offset) := by
  have hnone : t.entries.find? (fun e => e.contains offset) = none := by
    rw [List.find?_eq_none]
    intro e he hcontains
    have hstop := (tiles_size hsize).stop_le he
    simp only [LineEntry.contains, decide_eq_true_eq] at hcontains
    omega
  rw [entryAt, hnone]

theorem exists_entryAt_iff (hsize : t.size < limit32) :
    (∃ e, t.entryAt offset = .ok e) ↔ offset < t.size := by
  constructor
  · rintro ⟨e, he⟩
    by_contra hle
    rw [entryAt_of_size_le hsize (Nat.le_of_not_lt hle)] at he
    cases he
  · intro hlt
    obtain ⟨e, he, hcontains⟩ := (tiles_size hsize).exists_contains (Nat.zero_le _) hlt
    exact ⟨e, (entryAt_eq_ok_iff hsize).2 ⟨he, of_decide_eq_true hcontains⟩⟩

/-! ### Lines -/

/-- The offsets whose line is `line` or a later one. -/
def offsetsOfLine (t : LineTable) (line : Nat) : Set Nat :=
  {offset | ∃ l, t.lineAt? offset = some l ∧ line ≤ l}

/-- These are the offsets that entries of such lines cover. -/
theorem mem_offsetsOfLine_iff (hsize : t.size < limit32) :
    offset ∈ t.offsetsOfLine line ↔ ∃ e ∈ t.entries, e.contains offset = true ∧
      (e.line.any fun current => line ≤ current) = true := by
  constructor
  · rintro ⟨l, hl, hle⟩
    rw [lineAt?, Option.bind_eq_some_iff] at hl
    obtain ⟨e, hfind, hline⟩ := hl
    obtain ⟨he, hcontains⟩ := (find?_contains_eq_some_iff hsize).1 hfind
    refine ⟨e, he, hcontains, ?_⟩
    rw [hline]
    exact decide_eq_true hle
  · rintro ⟨e, he, hcontains, hlate⟩
    cases hline : e.line with
    | none =>
      rw [hline] at hlate
      cases hlate
    | some l =>
      rw [hline] at hlate
      refine ⟨l, ?_, of_decide_eq_true hlate⟩
      rw [lineAt?, find?_of_contains hsize he hcontains, Option.bind_some, hline]

/-- The first entry of such a line begins at the least offset of one. -/
theorem isLeast_of_entryOfLine? (hsize : t.size < limit32) (h : t.entryOfLine? line = some e) :
    IsLeast (t.offsetsOfLine line) e.start := by
  obtain ⟨hlate, before, after, hentries, hbefore⟩ := List.find?_eq_some_iff_append.1 h
  have he : e ∈ t.entries := hentries ▸ by simp
  have hpairwise := pairwise_entries hsize
  rw [hentries, List.pairwise_append, List.pairwise_cons] at hpairwise
  have hcovers := (stop_of_mem_entries hsize he).2
  refine ⟨(mem_offsetsOfLine_iff hsize).2 ⟨e, he, decide_eq_true ⟨le_rfl, hcovers⟩, hlate⟩, ?_⟩
  intro offset hoffset
  obtain ⟨e', he', hcontains, hlate'⟩ := (mem_offsetsOfLine_iff hsize).1 hoffset
  obtain ⟨hstart, -⟩ := of_decide_eq_true hcontains
  rw [hentries] at he'
  rcases List.mem_append.1 he' with hfront | hback
  · have hearly := hbefore e' hfront
    rw [hlate'] at hearly
    cases hearly
  · rcases List.mem_cons.1 hback with rfl | hbehind
    · exact hstart
    · have hstop := hpairwise.2.1.1 e' hbehind
      omega

theorem offsetsOfLine_eq_empty_iff (hsize : t.size < limit32) :
    t.offsetsOfLine line = ∅ ↔ t.entryOfLine? line = none := by
  constructor
  · intro hempty
    cases h : t.entryOfLine? line with
    | none => rfl
    | some e =>
      have hmem := (isLeast_of_entryOfLine? hsize h).1
      rw [hempty] at hmem
      cases hmem
  · intro hnone
    rw [Set.eq_empty_iff_forall_notMem]
    intro offset hoffset
    obtain ⟨e, he, -, hlate⟩ := (mem_offsetsOfLine_iff hsize).1 hoffset
    exact List.find?_eq_none.1 hnone e he hlate

/-! ### The table -/

/-- Entries cover bytes, and lie end to end from the first byte to the last. An offset is found
exactly if the table covers it, in the entry around it, and has the line of its byte. A line is found
at the least offset that has the line or a later one, and not at all exactly if there is none. -/
theorem lookUp_spec (hsize : t.size < limit32) :
    (Tiles t.size 0 t.entries ∧ ∀ e ∈ t.entries, e.start < e.stop) ∧
    (∀ offset, ((∃ e, t.entryAt offset = .ok e) ↔ offset < t.size) ∧
      (t.size ≤ offset → t.entryAt offset = .error (.offsetNotFound offset)) ∧
      (∀ e, t.entryAt offset = .ok e ↔ e ∈ t.entries ∧ e.start ≤ offset ∧ offset < e.stop) ∧
      t.lineAt? offset = t.expand[offset]?.join) ∧
    ∀ line, (∀ offset,
        t.offsetOfLine line = .ok offset ↔ IsLeast (t.offsetsOfLine line) offset) ∧
      (t.offsetOfLine line = .error (.lineNotFound line) ↔ t.offsetsOfLine line = ∅) := by
  refine ⟨⟨tiles_size hsize, fun e he => (stop_of_mem_entries hsize he).2⟩,
    fun offset => ⟨exists_entryAt_iff hsize, entryAt_of_size_le hsize,
      fun e => entryAt_eq_ok_iff hsize, lineAt?_eq_join hsize offset⟩, fun line => ?_⟩
  cases h : t.entryOfLine? line with
  | none =>
    have hempty := (offsetsOfLine_eq_empty_iff hsize).2 h
    have hfault := offsetOfLine_of_entryOfLine?_eq_none h
    rw [hfault, hempty]
    refine ⟨fun offset => ⟨fun hok => (nomatch hok), fun hleast => (nomatch hleast.1)⟩, ?_⟩
    exact ⟨fun _ => rfl, fun _ => rfl⟩
  | some e =>
    have hleast := isLeast_of_entryOfLine? hsize h
    have hok : t.offsetOfLine line = .ok e.start := offsetOfLine_eq_ok_iff.2 ⟨e, h, rfl⟩
    rw [hok]
    refine ⟨fun offset => ⟨fun heq => ?_, fun hleast' => ?_⟩, fun hfault => (nomatch hfault),
      fun hempty => ?_⟩
    · cases heq
      exact hleast
    · rw [hleast.unique hleast']
    · rw [hempty] at hleast
      cases hleast.1

/-- Lines out of order, behind a counter that falls below zero; one run is empty and one has no
line. -/
def wandering : LineTable :=
  ⟨3, [⟨2, some (-5)⟩, ⟨0, some 10⟩, ⟨4, none⟩, ⟨3, some 1⟩, ⟨2, some (-4)⟩, ⟨1, some 20⟩]⟩

/-- Lines 9, 5 and 25 begin at 6, 9 and 11. Line 5 is looked up from line 9 on. -/
theorem lookUp_wandering : wandering.size < limit32 ∧ Tiles 12 0 wandering.entries ∧
    IsLeast (wandering.offsetsOfLine 5) 6 ∧ IsLeast (wandering.offsetsOfLine 10) 11 ∧
    wandering.offsetsOfLine 26 = ∅ ∧ wandering.lineAt? 9 = some 5 ∧ wandering.lineAt? 0 = none := by
  have hsize : wandering.size < limit32 := by decide
  obtain ⟨⟨htiles, -⟩, -, hlines⟩ := lookUp_spec hsize
  exact ⟨hsize, htiles, ((hlines 5).1 6).1 (by decide), ((hlines 10).1 11).1 (by decide),
    (hlines 26).2.1 (by decide), by decide, by decide⟩

end Tripwire.LineTable
