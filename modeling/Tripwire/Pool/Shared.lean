import Tripwire.Pool.Store

/-!
# A pool and its other holders

One owner's view of a pool that others may hold too.

* `SharedPool.stage`, `SharedPool.commit`: a merge in two steps;
* `SharedPool.merge`: both steps, with the indices of the requested entries;
* `SharedPool.share`, `SharedPool.unshare`: one more holder, one less.

A replaced pool stays for those who hold it: `entries_commit_replace_of_lt`.
-/

namespace Tripwire

/-- The pool of an owner, and the pools that the others hold in the order in which they joined. -/
structure SharedPool (α : Type) where
  store : PoolStore α
  own : PoolId
  others : List PoolId
  deriving DecidableEq, Repr

namespace SharedPool

variable {α : Type}

/-- A pool that nobody else holds. -/
def start (pool : List α) : SharedPool α :=
  let (store, own) := PoolStore.empty.add pool
  ⟨store, own, []⟩

/-- The entries of the owner's pool. -/
def entries (s : SharedPool α) : List α := s.store.entries s.own

/-- The number of holders of the owner's pool, the owner included. -/
def ownerCount (s : SharedPool α) : Nat := 1 + s.others.count s.own

/-- For each of the others whether it holds the owner's pool, and what it holds. -/
def holdings (s : SharedPool α) : List (Bool × List α) :=
  s.others.map fun id => (id == s.own, s.store.entries id)

/-- One more holder of the owner's pool. -/
def share (s : SharedPool α) : SharedPool α := { s with others := s.others ++ [s.own] }

/-- The holder that joined last leaves. -/
def unshare (s : SharedPool α) : SharedPool α := { s with others := s.others.dropLast }

/-- The holders after a staged change of the owner's pool. -/
def commit (s : SharedPool α) (staged : Staged α) : SharedPool α :=
  let (store, own) := s.store.commit s.own staged
  { s with store, own }

@[simp] theorem entries_start (pool : List α) : (start pool).entries = pool := rfl

@[simp] theorem entries_commit_replace (s : SharedPool α) (pool : List α) :
    (s.commit (.replace pool)).entries = pool :=
  PoolStore.entries_add_self s.store pool

theorem entries_commit_replace_of_lt {s : SharedPool α} {id : PoolId}
    (h : id < s.store.pools.length) (pool : List α) :
    (s.commit (.replace pool)).store.entries id = s.store.entries id :=
  PoolStore.entries_add_of_lt h pool

variable [DecidableEq α]

/-- How the owner's pool is going to receive what it lacks of the requested entries. -/
def stage (s : SharedPool α) (requested : List α) : Staged α :=
  s.store.stage s.own s.ownerCount (Pool.plan s.entries requested).appended

/-- The holders after a merge, with the indices of the requested entries. -/
def merge (s : SharedPool α) (requested : List α) : SharedPool α × List UInt32 :=
  (s.commit (s.stage requested), (Pool.plan s.entries requested).indices)

end SharedPool

end Tripwire
