import Tripwire.Fault

/-!
# Breakpoints

A breakpoint is active from its insertion to its removal and has a number of its
own. The registry holds the active ones by rising number.

* `Registry.get?`: the look-up;
* `Registry.activate`, `Registry.deactivate`: the two moves, each refused in the
  wrong state;
* `Registry.status`: the state of a number, active or not.
-/

namespace Tripwire

/-- An active breakpoint: the line it was set at, the size of its call and the stack budget it
added. -/
structure Breakpoint where
  id : Nat
  line : Nat
  injectedSize : Nat
  stackGrowth : Nat
  deriving DecidableEq, Repr

/-- What is known of a breakpoint number. Inactive numbers have no line and no size. -/
structure Status where
  id : Nat
  active : Bool
  line : Option Nat
  injectedSize : Nat
  deriving DecidableEq, Repr

/-- A breakpoint among others that are ordered by number. -/
def insertById (b : Breakpoint) : List Breakpoint → List Breakpoint
  | [] => [b]
  | other :: rest => if b.id < other.id then b :: other :: rest else other :: insertById b rest

theorem mem_insertById {b c : Breakpoint} {l : List Breakpoint} :
    c ∈ insertById b l ↔ c = b ∨ c ∈ l := by
  induction l with
  | nil => simp [insertById]
  | cons other rest ih =>
    unfold insertById
    split
    · simp
    · simp only [List.mem_cons, ih]
      constructor
      · rintro (h | h | h) <;> simp [h]
      · rintro (h | h | h) <;> simp [h]

theorem pairwise_insertById {b : Breakpoint} {l : List Breakpoint} (fresh : ∀ c ∈ l, c.id ≠ b.id)
    (sorted : l.Pairwise fun a c => a.id < c.id) :
    (insertById b l).Pairwise fun a c => a.id < c.id := by
  induction l with
  | nil => simp [insertById]
  | cons other rest ih =>
    have parts := List.pairwise_cons.1 sorted
    unfold insertById
    split
    · rename_i before
      refine List.pairwise_cons.2 ⟨fun c mem => ?_, sorted⟩
      rcases List.mem_cons.1 mem with rfl | mem
      · exact before
      · exact Nat.lt_trans before (parts.1 c mem)
    · rename_i behind
      have ne := fresh other (List.mem_cons_self ..)
      refine List.pairwise_cons.2
        ⟨fun c mem => ?_, ih (fun c mem => fresh c (List.mem_cons_of_mem _ mem)) parts.2⟩
      rcases mem_insertById.1 mem with rfl | mem
      · omega
      · exact parts.1 c mem

/-- The active breakpoints by rising number. -/
structure Registry where
  active : List Breakpoint
  sorted : active.Pairwise fun a b => a.id < b.id
  deriving DecidableEq, Repr

namespace Registry

/-- The registry without breakpoints. -/
def empty : Registry := ⟨[], List.Pairwise.nil⟩

/-- The active breakpoint with a given number. -/
def get? (r : Registry) (id : Nat) : Option Breakpoint := r.active.find? fun b => b.id == id

/-- Refuses a number that is active. -/
def ensureInactive (r : Registry) (id : Nat) : Except Fault Unit :=
  match r.get? id with
  | none => .ok ()
  | some _ => .error (.alreadyActive id)

/-- The active breakpoint with a number; refuses a number that is not active. -/
def ensureActive (r : Registry) (id : Nat) : Except Fault Breakpoint :=
  match r.get? id with
  | some b => .ok b
  | none => .error (.notActive id)

/-- Makes a breakpoint active. -/
def activate (r : Registry) (b : Breakpoint) : Except Fault Registry :=
  match h : r.get? b.id with
  | some _ => .error (.alreadyActive b.id)
  | none => .ok
    ⟨insertById b r.active,
      pairwise_insertById (fun c mem => by simpa using List.find?_eq_none.1 h c mem) r.sorted⟩

/-- The registry without a number. -/
def erase (r : Registry) (id : Nat) : Registry :=
  ⟨r.active.filter fun b => b.id != id, r.sorted.filter _⟩

/-- Makes a breakpoint inactive and returns it. -/
def deactivate (r : Registry) (id : Nat) : Except Fault (Breakpoint × Registry) := do
  let b ← r.ensureActive id
  pure (b, r.erase id)

/-- What is known of a number. -/
def status (r : Registry) (id : Nat) : Status :=
  match r.get? id with
  | some b => ⟨id, true, some b.line, b.injectedSize⟩
  | none => ⟨id, false, none, 0⟩

/-- The statuses of the active breakpoints. -/
def statuses (r : Registry) : List Status := r.active.map fun b => r.status b.id

@[simp] theorem get?_empty (id : Nat) : empty.get? id = none := rfl

theorem get?_eq_none_iff {r : Registry} {id : Nat} :
    r.get? id = none ↔ ∀ b ∈ r.active, b.id ≠ id := by
  simp [get?, List.find?_eq_none]

@[simp] theorem get?_erase_self (r : Registry) (id : Nat) : (r.erase id).get? id = none := by
  simp [get?_eq_none_iff, erase]

end Registry

end Tripwire
