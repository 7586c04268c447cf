import Mathlib.Logic.Relation
import Tripwire.Proofs.Relocation.Settle

/-!
# The stages of relocation

Relocation goes from one stage to the next by applying a change. It ends with nothing left
to apply, or at an operand that goes out of range, unless it has used up its rounds before.

* `Stage`, `Stage.Next`, `Stage.Reaches`: relocation, one change after another;
* `Stage.Reaches.keeps`: what every change keeps holds at every stage;
* `Stage.Ends`: a last stage, with the outcome of relocation;
* `Stage.exists_ends_of_settle`, `Stage.exists_ends_of_relocate`: where a number of rounds leads to;
* `settle_induction`: what every sweep keeps holds at the end.
-/

namespace Tripwire

/-- How far relocation has come: the changes that have been applied, those that are pending, and the
slots as they are now. There is at most one next stage, so those that can be reached are those of
the run. -/
structure Stage where
  applied : List Shift
  pending : List Shift
  slots : List Slot

namespace Stage

variable {growing : Bool} {g g' : Stage} {rounds : Nat} {fault : Fault} {primary : Shift}
  {slots : List Slot}

/-- In the beginning the edit itself is pending. -/
def start (primary : Shift) (slots : List Slot) : Stage := ⟨[], [primary], slots⟩

/-- The first pending change is applied, and those that it causes come behind the others. -/
inductive Next (growing : Bool) : Stage → Stage → Prop
  | apply {applied pending caused : List Shift} {change : Shift} {slots slots' : List Slot}
      (h : sweep growing change slots = .ok (slots', caused)) :
      Next growing ⟨applied, change :: pending, slots⟩
        ⟨applied ++ [change], pending ++ caused, slots'⟩

/-- From one stage to another by any number of changes. -/
def Reaches (growing : Bool) : Stage → Stage → Prop := Relation.ReflTransGen (Next growing)

/-- The stage is the last one, with the given outcome: nothing is pending, or the next change cannot
be applied. -/
inductive Ends (growing : Bool) : Stage → Except Fault (List Slot × List Shift) → Prop
  | settled (applied : List Shift) (slots : List Slot) :
      Ends growing ⟨applied, [], slots⟩ (.ok (slots, applied))
  | refused {applied pending : List Shift} {change : Shift} {slots : List Slot} {fault : Fault}
      (h : sweep growing change slots = .error fault) :
      Ends growing ⟨applied, change :: pending, slots⟩ (.error fault)

/-- What every change keeps holds at every stage. -/
theorem Reaches.keeps (P : Stage → Prop) (hstep : ∀ {g g'}, P g → Next growing g g' → P g')
    (h : g.Reaches growing g') (hP : P g) : P g' := by
  induction h with
  | refl => exact hP
  | tail _ hnext ih => exact hstep ih hnext

theorem Next.follows (h : Next growing g g') : List.Forall₂ Slot.Follows g.slots g'.slots := by
  obtain ⟨hsweep⟩ := h
  exact follows_of_sweep hsweep

theorem Reaches.follows (h : g.Reaches growing g') : List.Forall₂ Slot.Follows g.slots g'.slots :=
  h.keeps (fun g' => List.Forall₂ Slot.Follows g.slots g'.slots)
    (fun hP hnext => forall₂_trans (fun _ _ _ h h' => h.trans h') hP hnext.follows)
    (List.forall₂_same.2 fun s _ => .refl s)

/-! ### Rounds -/

/-- A number of rounds leads to the last stage, with the outcome that it has, or is used up by as
many changes while others are pending. -/
theorem exists_ends_of_settle (growing : Bool) (rounds : Nat) (g : Stage) :
    ∃ g', g.Reaches growing g' ∧
      (g'.Ends growing ((settle growing rounds g.pending g.slots).map fun p =>
          (p.1, g.applied ++ p.2)) ∨
        settle growing rounds g.pending g.slots = .error (.inconsistent .relocationUnsettled) ∧
          g'.applied.length = g.applied.length + rounds) := by
  induction rounds generalizing g with
  | zero =>
    obtain ⟨applied, _ | ⟨change, pending⟩, slots⟩ := g
    · refine ⟨_, .refl, .inl ?_⟩
      simpa [settle, Except.map] using Ends.settled applied slots
    · exact ⟨_, .refl, .inr ⟨rfl, rfl⟩⟩
  | succ rounds ih =>
    obtain ⟨applied, _ | ⟨change, pending⟩, slots⟩ := g
    · refine ⟨_, .refl, .inl ?_⟩
      simpa [settle, Except.map] using Ends.settled applied slots
    · cases hsweep : sweep growing change slots with
      | error fault =>
        refine ⟨_, .refl, .inl ?_⟩
        simpa [settle, hsweep, bind, Except.bind, Except.map] using Ends.refused hsweep
      | ok swept =>
        obtain ⟨slots', caused⟩ := swept
        obtain ⟨g', hreaches, hend⟩ := ih ⟨applied ++ [change], pending ++ caused, slots'⟩
        refine ⟨g', .head (.apply hsweep) hreaches, ?_⟩
        rcases hend with hend | ⟨hfault, hlength⟩
        · refine .inl ?_
          -- What the remaining rounds apply comes behind this change.
          cases hrest : settle growing rounds (pending ++ caused) slots' with
          | error fault =>
            simpa [settle, hsweep, hrest, bind, Except.bind, Except.map] using hend
          | ok p =>
            simpa [settle, hsweep, hrest, bind, Except.bind, pure, Except.pure, Except.map] using
              hend
        · refine .inr ⟨?_, ?_⟩
          · simp only at hfault
            simp [settle, hsweep, hfault, bind, Except.bind]
          · simp only [List.length_append, List.length_singleton] at hlength ⊢
            omega

/-- Only an operand out of range stops relocation. -/
theorem Ends.operandRange (h : g.Ends growing (.error fault)) :
    ∃ operand opcode origin, fault = .inconsistent (.operandRange operand opcode origin) := by
  cases h with
  | refused hsweep =>
    rw [sweep, bind_eq_error_iff] at hsweep
    rcases hsweep with hmapM | ⟨_, -, hpure⟩
    · obtain ⟨s, -, hshift⟩ := exists_of_mapM_eq_error hmapM
      unfold Slot.shift at hshift
      split at hshift
      · cases hshift
      · split at hshift
        · cases hshift
        · simp only at hshift
          split at hshift
          · split at hshift
            · cases hshift
              exact ⟨_, _, _, rfl⟩
            · cases hshift
          · cases hshift
    · cases hpure

/-- Relocation ends within its rounds if it never applies as many changes. -/
theorem exists_ends_of_relocate
    (h : ∀ g, (start primary slots).Reaches (decide (0 < primary.delta)) g →
      g.applied.length < relocationRounds slots) :
    ∃ g, (start primary slots).Reaches (decide (0 < primary.delta)) g ∧
      g.Ends (decide (0 < primary.delta)) (relocate primary slots) := by
  obtain ⟨g, hreaches, hend⟩ := exists_ends_of_settle (decide (0 < primary.delta))
    (relocationRounds slots) (start primary slots)
  refine ⟨g, hreaches, ?_⟩
  rcases hend with hend | ⟨-, hlength⟩
  · rw [relocate]
    cases hsettle : settle (decide (0 < primary.delta)) (relocationRounds slots) [primary] slots <;>
      simpa [start, hsettle, Except.map] using hend
  · have hless := h g hreaches
    simp only [start, List.length_nil] at hlength
    omega

end Stage

/-- What every sweep keeps holds when no change is pending any more. -/
theorem settle_induction {growing : Bool} {rounds : Nat} {applied pending shifts : List Shift}
    {slots slots' : List Slot} (P : List Shift → List Shift → List Slot → Prop)
    (hstep : ∀ {applied change pending slots slots' caused}, P applied (change :: pending) slots →
      sweep growing change slots = .ok (slots', caused) →
        P (applied ++ [change]) (pending ++ caused) slots')
    (h : settle growing rounds pending slots = .ok (slots', shifts))
    (hP : P applied pending slots) : P (applied ++ shifts) [] slots' := by
  obtain ⟨g, hreaches, hend⟩ := Stage.exists_ends_of_settle growing rounds ⟨applied, pending, slots⟩
  have hkeeps := hreaches.keeps (fun g => P g.applied g.pending g.slots)
    (fun hP hnext => by
      obtain ⟨hsweep⟩ := hnext
      exact hstep hP hsweep) hP
  rw [h] at hend
  rcases hend with hend | ⟨hfault, -⟩
  · cases hend
    exact hkeeps
  · cases hfault

end Tripwire
