import Tripwire.Proofs.LineTable.Recut

/-!
# Line tables byte by byte

A line table gives every byte of the code a line, and all bytes of a run the same.

* `LineTable.expand`: the lines of the bytes, with `LineTable.lineAt?_eq_join`;
* `LineTable.exists_expand_split`: the bytes of one run among all bytes.
-/

namespace Tripwire

namespace LineTable

/-- The lines of the bytes that runs cover, with the counter at `counter`. -/
def expandFrom (counter : Int) : List LineRun → List (Option Nat)
  | [] => []
  | run :: runs =>
    let counter := counter + run.step.getD 0
    List.replicate run.size (run.step.bind fun _ => lineOfCounter counter) ++
      expandFrom counter runs

/-- The lines of the bytes that the table covers. -/
def expand (t : LineTable) : List (Option Nat) := expandFrom t.firstLine t.runs

section Look

variable {t : LineTable} {runs : List LineRun} {p : Nat}

theorem find?_entriesFrom_bind (hsize : p + span runs < limit32) (counter : Int)
    (index offset : Nat) :
    ((entriesFrom p counter index runs).find? fun e => e.contains (p + offset)).bind
      LineEntry.line = (expandFrom counter runs)[offset]?.join := by
  induction runs generalizing p counter index offset with
  | nil => rfl
  | cons run runs ih =>
    rw [span_cons, ← Nat.add_assoc] at hsize
    rw [entriesFrom, expandFrom]
    by_cases hempty : run.size = 0
    · rw [hempty, Nat.add_zero] at hsize
      simp only [hempty, if_true, List.replicate_zero, List.nil_append, Nat.add_zero]
      exact ih hsize _ _ _
    · have hstop : min (p + run.size) (limit32 - 1) = p + run.size := by omega
      simp only [if_neg hempty, hstop, List.find?_cons, LineEntry.contains]
      by_cases hin : offset < run.size
      · have hcontains : decide (p ≤ p + offset ∧ p + offset < p + run.size) = true :=
          decide_eq_true (by omega)
        rw [List.getElem?_append_left (by simpa using hin), List.getElem?_replicate, if_pos hin]
        simp only [hcontains]
        rfl
      · have hcontains : decide (p ≤ p + offset ∧ p + offset < p + run.size) = false :=
          decide_eq_false (by omega)
        have htail := ih hsize (counter + run.step.getD 0) (index + 1) (offset - run.size)
        rw [show p + run.size + (offset - run.size) = p + offset by omega] at htail
        rw [List.getElem?_append_right (by simpa using hin), List.length_replicate]
        simp only [hcontains]
        exact htail

/-- The line of an offset is that of the byte there, if it has one. -/
theorem lineAt?_eq_join (hsize : t.size < limit32) (p : Nat) :
    t.lineAt? p = t.expand[p]?.join := by
  rw [size_eq_span, ← Nat.zero_add (span t.runs)] at hsize
  have hfind := find?_entriesFrom_bind hsize t.firstLine 0 p
  rwa [Nat.zero_add] at hfind

end Look

/-! ### One run -/

/-- The bytes of a run lie between bytes that do not depend on its size. -/
theorem exists_expand_split (firstLine : Nat) (pre : List LineRun) (step : Option Int)
    (post : List LineRun) : ∃ front line back, front.length = span pre ∧
      ∀ size, expand ⟨firstLine, pre ++ ⟨size, step⟩ :: post⟩ =
        front ++ (List.replicate size line ++ back) := by
  have hfrom : ∀ counter : Int, ∃ front line back, front.length = span pre ∧
      ∀ size, expandFrom counter (pre ++ ⟨size, step⟩ :: post) =
        front ++ (List.replicate size line ++ back) := by
    induction pre with
    | nil =>
      exact fun counter => ⟨[], step.bind fun _ => lineOfCounter (counter + step.getD 0),
        expandFrom (counter + step.getD 0) post, rfl, fun _ => rfl⟩
    | cons run pre ih =>
      intro counter
      obtain ⟨front, line, back, hlength, hsplit⟩ := ih (counter + run.step.getD 0)
      refine ⟨List.replicate run.size (run.step.bind fun _ =>
        lineOfCounter (counter + run.step.getD 0)) ++ front, line, back, ?_, fun size => ?_⟩
      · rw [List.length_append, List.length_replicate, hlength, span_cons]
      · rw [List.cons_append, expandFrom]
        simp only [hsplit, List.append_assoc]
  exact hfrom firstLine

theorem getElem?_split {α : Type} (front back : List α) (a : α) (size p : Nat) :
    (front ++ (List.replicate size a ++ back))[p]? =
      if p < front.length then front[p]?
      else if p < front.length + size then some a
      else back[p - (front.length + size)]? := by
  by_cases hfront : p < front.length
  · rw [if_pos hfront, List.getElem?_append_left hfront]
  · rw [if_neg hfront, List.getElem?_append_right (Nat.le_of_not_lt hfront)]
    by_cases hin : p < front.length + size
    · have hlt : p - front.length < size := by omega
      rw [if_pos hin, List.getElem?_append_left (by simpa using hlt), List.getElem?_replicate,
        if_pos hlt]
    · have hle : size ≤ p - front.length := by omega
      rw [if_neg hin, List.getElem?_append_right (by simpa using hle), List.length_replicate,
        Nat.sub_sub]

end LineTable

end Tripwire
