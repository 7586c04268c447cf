/-!
# Pools

A pool is a list of entries that code refers to by index. Requested entries are
merged into it: those it already holds are shared, the others are appended, each
once. An index always is the first place of its entry, told in 32 bits.

* `Pool.appended`: the entries a merge has to append;
* `Pool.merge`: the pool after the merge;
* `Pool.indices`: the indices of the requested entries in the merged pool;
* `Pool.plan`: both in one pass, before anything is appended.

Old entries keep their places, so a merge never invalidates code:
`isPrefix_merge`.
-/

namespace Tripwire.Pool

variable {α : Type} [DecidableEq α]

/-- The index of an entry: its first place, in 32 bits. -/
def find? (pool : List α) (entry : α) : Option UInt32 := (pool.idxOf? entry).map UInt32.ofNat

/-- The requested entries that the pool lacks, in the order of their first request. -/
def appended (pool : List α) : List α → List α
  | [] => []
  | entry :: rest =>
    if entry ∈ pool then appended pool rest else entry :: appended (pool ++ [entry]) rest

/-- The pool with the requested entries merged in. -/
def merge (pool requested : List α) : List α := pool ++ appended pool requested

/-- The indices of the requested entries in the merged pool. -/
def indices (pool requested : List α) : List UInt32 :=
  let merged := merge pool requested
  requested.map fun entry => UInt32.ofNat (merged.idxOf entry)

/-- What a merge is going to do: the indices of the requested entries, and the entries that it has to
append. -/
structure Plan (α : Type) where
  indices : List UInt32
  appended : List α
  deriving DecidableEq, Repr

/-- The index of an entry in a pool behind which `pending` is going to be appended, and what is
going to be appended then. The entry is looked up in the pool first. -/
def place (pool pending : List α) (entry : α) : UInt32 × List α :=
  match find? pool entry with
  | some index => (index, pending)
  | none =>
    match find? pending entry with
    | some index => (UInt32.ofNat pool.length + index, pending)
    | none => (UInt32.ofNat (pool.length + pending.length), pending ++ [entry])

/-- The plan for further requests, when `pending` is going to be appended for those before. -/
def planFrom (pool pending : List α) : List α → Plan α
  | [] => ⟨[], pending⟩
  | entry :: rest =>
    let (index, pending) := place pool pending entry
    let p := planFrom pool pending rest
    { p with indices := index :: p.indices }

/-- The plan for some requests. -/
def plan (pool requested : List α) : Plan α := planFrom pool [] requested

@[simp] theorem appended_nil (pool : List α) : appended pool [] = [] := rfl

@[simp] theorem merge_nil (pool : List α) : merge pool [] = pool := by
  simp [merge]

theorem merge_cons (pool : List α) (entry : α) (rest : List α) :
    merge pool (entry :: rest) =
      if entry ∈ pool then merge pool rest else merge (pool ++ [entry]) rest := by
  by_cases h : entry ∈ pool <;> simp [merge, appended, h]

/-- The old pool stands in front of the merged one. -/
theorem isPrefix_merge (pool requested : List α) : pool <+: merge pool requested :=
  List.prefix_append _ _

@[simp] theorem length_indices (pool requested : List α) :
    (indices pool requested).length = requested.length := by
  simp [indices]

end Tripwire.Pool
