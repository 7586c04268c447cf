import Tripwire.Pool

/-!
# Shared pools

Functions may share a pool, so pools stand in a store and are referred to by
number. A pool with one owner is extended in place. A shared pool stays as it is;
the owner that needs more entries moves to an extended copy.

* `PoolStore.stage`: how a pool is going to receive entries;
* `PoolStore.commit`: the store afterwards, and the pool that the owner holds.
-/

namespace Tripwire

/-- The number of a pool in its store. -/
abbrev PoolId := Nat

/-- Pools by number. -/
structure PoolStore (α : Type) where
  pools : List (List α)
  deriving DecidableEq, Repr

/-- How a pool receives entries. -/
inductive Staged (α : Type)
  | unchanged
  | inPlace (entries : List α)
  | replace (pool : List α)
  deriving DecidableEq, Repr

namespace PoolStore

variable {α : Type}

/-- The store without pools. -/
def empty : PoolStore α := ⟨[]⟩

/-- The entries of a pool. -/
def entries (s : PoolStore α) (id : PoolId) : List α := s.pools[id]?.getD []

/-- A new pool. -/
def add (s : PoolStore α) (pool : List α) : PoolStore α × PoolId :=
  (⟨s.pools ++ [pool]⟩, s.pools.length)

/-- The pool with entries added behind its own, seen by all its owners. -/
def extend (s : PoolStore α) (id : PoolId) (added : List α) : PoolStore α :=
  ⟨s.pools.modify id fun pool => pool ++ added⟩

/-- How a pool of `owners` owners receives the entries `added`. -/
def stage (s : PoolStore α) (id : PoolId) (owners : Nat) (added : List α) : Staged α :=
  if added.isEmpty then .unchanged
  else if owners ≤ 1 then .inPlace added
  else .replace (s.entries id ++ added)

/-- The store after the staged change, and the pool that its owner holds then. -/
def commit (s : PoolStore α) (id : PoolId) : Staged α → PoolStore α × PoolId
  | .unchanged => (s, id)
  | .inPlace added => (s.extend id added, id)
  | .replace pool => s.add pool

/-- Stages and commits. -/
def append (s : PoolStore α) (id : PoolId) (owners : Nat) (added : List α) :
    PoolStore α × PoolId :=
  s.commit id (s.stage id owners added)

@[simp] theorem entries_add_self (s : PoolStore α) (pool : List α) :
    (s.add pool).1.entries (s.add pool).2 = pool := by
  simp [add, entries]

theorem entries_add_of_lt {s : PoolStore α} {id : PoolId} (h : id < s.pools.length)
    (pool : List α) : (s.add pool).1.entries id = s.entries id := by
  simp [add, entries, List.getElem?_append_left h]

theorem entries_extend_of_ne {s : PoolStore α} {id other : PoolId} (h : other ≠ id)
    (added : List α) : (s.extend id added).entries other = s.entries other := by
  simp [extend, entries, Ne.symm h]

/-- However a pool receives entries, its owner holds them behind the old ones. -/
theorem entries_append {s : PoolStore α} {id : PoolId} (h : id < s.pools.length) (owners : Nat) (added : List α) :
    (s.append id owners added).1.entries (s.append id owners added).2 = s.entries id ++ added := by
  unfold append stage
  by_cases hempty : added.isEmpty
  · rw [if_pos hempty, List.isEmpty_iff.1 hempty, List.append_nil]
    rfl
  · rw [if_neg hempty]
    by_cases howners : owners ≤ 1
    · rw [if_pos howners]
      simp [commit, extend, entries, h]
    · rw [if_neg howners]
      exact entries_add_self s _

theorem length_le_append (s : PoolStore α) (id : PoolId) (owners : Nat) (added : List α) :
    s.pools.length ≤ (s.append id owners added).1.pools.length := by
  unfold append
  cases s.stage id owners added <;> simp [commit, extend, add]

theorem lt_append {s : PoolStore α} {id : PoolId} (h : id < s.pools.length) (owners : Nat) (added : List α) :
    (s.append id owners added).2 < (s.append id owners added).1.pools.length := by
  unfold append
  cases s.stage id owners added <;> simp [commit, extend, add, h]

end PoolStore

end Tripwire
