import Tripwire.Proofs.Program
import Tripwire.Proofs.Session.Invariant
import Tripwire.Workspace

/-!
# Requests that fail

The requests change a workspace step by step, and a step that fails does not undo
those before it. That a request that fails leaves no trace is a matter of their
order: every step that can fail comes before the first change.

* `Workspace.atomic_setBreakpoint`, `Workspace.atomic_clearBreakpoint`: the requests;
* `Workspace.eq_of_fault`: what is left of a workspace by a request that fails.
-/

namespace Tripwire

namespace Workspace

open Program

/-! ### The requests -/

variable {w w' : Workspace} {index line id : Nat} {fault : Fault}

/-- The registry refuses before it is changed. -/
theorem atomic_activate (b : Breakpoint) : Atomic (activate b) := by
  apply silent_get.bind_atomic
  intro w
  apply (silent_lift _).bind_atomic
  intro registry
  exact (safe_change _).atomic

theorem atomic_deactivate (id : Nat) : Atomic (deactivate id) := by
  apply silent_get.bind_atomic
  intro w
  apply (silent_lift _).bind_atomic
  intro registry
  exact (safe_change _).atomic

/-- The registry is the last to refuse a breakpoint that is to be set. -/
theorem atomic_setBreakpoint (index line id : Nat) : Atomic (setBreakpoint index line id) := by
  unfold setBreakpoint
  apply silent_get.bind_atomic
  intro w
  cases w.function? index with
  | none => exact (silent_pure ()).atomic
  | some f =>
    -- The steps that may fail, none of which changes anything.
    apply (silent_lift (w.injector.planInsert f line id)).bind_atomic
    intro p
    apply (silent_lift p.draft.finish).bind_atomic
    intro edit
    apply (silent_lift (f.lines.followed edit.shifts)).bind_atomic
    intro lines
    apply (silent_require _ _).bind_atomic
    intro _
    -- The changes, none of which fails once the registry has accepted.
    apply (atomic_activate p.breakpoint).bind_safe
    intro _
    apply (safe_change _).bind
    intro _
    apply (safe_change _).bind
    intro _
    apply (safe_change _).bind
    intro _
    apply (safe_change _).bind
    intro _
    exact safe_change _

/-- The registry is the last to refuse a breakpoint that is to be cleared. -/
theorem atomic_clearBreakpoint (index line id : Nat) :
    Atomic (clearBreakpoint index line id) := by
  unfold clearBreakpoint
  apply silent_get.bind_atomic
  intro w
  cases w.function? index with
  | none => exact (silent_pure ()).atomic
  | some f =>
    apply (silent_lift (w.injector.planRemove f line id)).bind_atomic
    intro p
    apply (silent_lift p.draft.finish).bind_atomic
    intro edit
    apply (silent_require _ _).bind_atomic
    intro _
    apply (silent_lift (f.lines.followed edit.shifts)).bind_atomic
    intro lines
    apply (silent_require _ _).bind_atomic
    intro _
    apply (atomic_deactivate p.breakpoint.id).bind_safe
    intro _
    apply (safe_change _).bind
    intro _
    apply (safe_change _).bind
    intro _
    exact safe_change _

/-- A request that fails leaves everything as it was: of every function the code, the line table,
the stack budget and the pools that it holds, the entries of the pools, and the registry. -/
theorem eq_of_fault
    (h : w.insert index line id = (w', some fault) ∨ w.remove index line id = (w', some fault)) :
    w' = w := by
  rcases h with h | h
  · exact (atomic_setBreakpoint index line id).eq_of_attempt h
  · exact (atomic_clearBreakpoint index line id).eq_of_attempt h

/-! ### A request that fails late -/

/-- A function whose stack budget cannot grow. -/
def deepest : Function := { Function.twoLines with stackDepth := limit32 - 1 }

/-- Two functions of that kind that share their pools. -/
def full : Workspace := ((start .standard).add deepest).clone 0

/-- The request fails at the stack budget, after the line table has followed the code. -/
theorem exists_fault_full : ∃ w',
    full.insert 0 2 7 = (w', some (.inconsistent .stackBudgetOverflow)) ∧ w' = full := by
  have hplan : full.injector.planInsert deepest 2 7 = .ok ⟨⟨7, 2, 10, 3⟩, 2,
      ⟨.ofPlaced ⟨.jumpAbsolute, 2, 1⟩ 0 :: ((callBlock 0 1 0).map Slot.fresh ++
        [.ofPlaced (.bare .returnValue) 2]), .before 2 10, []⟩⟩ := by
    decide +kernel
  have hfinish : Draft.finish ⟨.ofPlaced ⟨.jumpAbsolute, 2, 1⟩ 0 ::
        ((callBlock 0 1 0).map Slot.fresh ++ [.ofPlaced (.bare .returnValue) 2]), .before 2 10, []⟩ =
      .ok ⟨Block.encode (⟨.jumpAbsolute, 12, 1⟩ :: callBlock 0 1 0 ++ [.bare .returnValue]),
        [.before 2 10], []⟩ :=
    Block.finish_eq_ok_iff.2 ⟨_, rfl, rfl, by decide, rfl, rfl⟩
  have hlines : deepest.lines.followed [.before 2 10] =
      .ok (.ofSpans 1 [(2, some 1), (12, some 2)]) := by
    rw [LineTable.followed, LineTable.follow, LineTable.fallingOrder, List.mergeSort_singleton]
    rfl
  have hfault : full.insert 0 2 7 = (full, some (.inconsistent .stackBudgetOverflow)) := by
    have hfunction : full.function? 0 = some deepest := rfl
    rw [insert, attempt, setBreakpoint, exec_bind, exec_get]
    simp only [hfunction, exec_bind, exec_lift, hplan, hfinish, hlines]
    rfl
  exact ⟨full, hfault, eq_of_fault (.inl hfault)⟩

end Workspace

end Tripwire
