import Tripwire.Pool
import Mathlib.Data.List.Nodup
import Mathlib.Tactic.Common

/-!
# What a merge does to a pool

A merge looks every requested entry up, first in the pool and then among the entries
that it is going to append, whose places count from the end of the pool. That gives
the index which the entry has in the merged pool, and what is appended is what the
pool lacks, once each and in the order of the first requests.

* `Pool.mem_appended`, `Pool.nodup_appended`, `Pool.pairwise_appended`: what a merge appends;
* `Pool.mem_merge`, `Pool.nodup_merge`, `Pool.merge_eq_self`: the merged pool;
* `Pool.merge_append`, `Pool.appended_append`, `Pool.indices_append`: requests in two parts;
* `Pool.appended_plan`, `Pool.indices_plan`: the plan of a merge is right.
-/

namespace Tripwire.Pool

variable {α : Type} [DecidableEq α] {pool pending requested : List α} {entry : α}

/-! ### Look-ups -/

theorem find?_eq_some_iff {index : UInt32} :
    find? pool entry = some index ↔ entry ∈ pool ∧ UInt32.ofNat (pool.idxOf entry) = index := by
  rw [find?, List.idxOf_eq_getD_idxOf?, ← List.isSome_idxOf?]
  cases pool.idxOf? entry <;> simp

theorem find?_eq_none_iff : find? pool entry = none ↔ entry ∉ pool := by
  simp [find?]

/-- A look-up in a pool with more entries behind it counts the places of those from its end, in 32
bits as well. -/
theorem find?_append (pool pending : List α) (entry : α) : find? (pool ++ pending) entry =
    (find? pool entry).or
      ((find? pending entry).map fun index => UInt32.ofNat pool.length + index) := by
  cases hpool : find? pool entry with
  | some index =>
    obtain ⟨hmem, rfl⟩ := find?_eq_some_iff.1 hpool
    exact find?_eq_some_iff.2
      ⟨List.mem_append_left _ hmem, by rw [List.idxOf_append_of_mem hmem]⟩
  | none =>
    have hnot := find?_eq_none_iff.1 hpool
    cases hpending : find? pending entry with
    | some index =>
      obtain ⟨hmem, rfl⟩ := find?_eq_some_iff.1 hpending
      refine find?_eq_some_iff.2 ⟨List.mem_append_right _ hmem, ?_⟩
      rw [List.idxOf_append_of_notMem hnot, UInt32.ofNat_add]
    | none =>
      refine find?_eq_none_iff.2 fun hmem => ?_
      exact (List.mem_append.1 hmem).elim hnot (find?_eq_none_iff.1 hpending)

theorem getElem?_ne_of_lt_idxOf {j : Nat} (h : j < pool.idxOf entry) : pool[j]? ≠ some entry := by
  intro hj
  have htake : entry ∈ pool.take (j + 1) :=
    List.mem_of_getElem? ((List.getElem?_take_of_lt (Nat.lt_succ_self j)).trans hj)
  have hle := (List.mem_take_iff_idxOf_lt (List.mem_of_getElem? hj)).1 htake
  omega

/-! ### What is appended -/

theorem mem_appended : entry ∈ appended pool requested ↔ entry ∈ requested ∧ entry ∉ pool := by
  induction requested generalizing pool with
  | nil => simp
  | cons e requested ih =>
    rw [appended]
    by_cases he : e ∈ pool
    · rw [if_pos he, ih, List.mem_cons]
      constructor
      · exact fun h => ⟨.inr h.1, h.2⟩
      · rintro ⟨rfl | h, hpool⟩
        · exact absurd he hpool
        · exact ⟨h, hpool⟩
    · rw [if_neg he, List.mem_cons, ih, List.mem_append, List.mem_singleton, List.mem_cons]
      constructor
      · rintro (rfl | h)
        · exact ⟨.inl rfl, he⟩
        · exact ⟨.inr h.1, fun hpool => h.2 (.inl hpool)⟩
      · rintro ⟨rfl | h, hpool⟩
        · exact .inl rfl
        · by_cases heq : entry = e
          · exact .inl heq
          · exact .inr ⟨h, fun hor => hor.elim hpool heq⟩

/-- Some requested entry has to be added exactly when the pool lacks one. -/
theorem appended_ne_nil_iff : appended pool requested ≠ [] ↔ ∃ a ∈ requested, a ∉ pool := by
  simp only [ne_eq, List.eq_nil_iff_forall_not_mem, not_forall, not_not, mem_appended]

theorem appended_eq_nil (h : ∀ e ∈ requested, e ∈ pool) : appended pool requested = [] := by
  refine List.eq_nil_iff_forall_not_mem.2 fun e he => ?_
  obtain ⟨hmem, hnew⟩ := mem_appended.1 he
  exact hnew (h e hmem)

theorem nodup_appended (pool requested : List α) : (appended pool requested).Nodup := by
  induction requested generalizing pool with
  | nil => exact List.nodup_nil
  | cons e requested ih =>
    rw [appended]
    by_cases he : e ∈ pool
    · rw [if_pos he]
      exact ih pool
    · rw [if_neg he, List.nodup_cons]
      refine ⟨fun hmem => ?_, ih _⟩
      exact (mem_appended.1 hmem).2 (List.mem_append_right _ (List.mem_singleton_self e))

/-- Entries are appended in the order of their first requests. -/
theorem pairwise_appended (pool requested : List α) :
    (appended pool requested).Pairwise fun a b => requested.idxOf a < requested.idxOf b := by
  induction requested generalizing pool with
  | nil => exact List.Pairwise.nil
  | cons e requested ih =>
    -- Further entries differ from `e`, so that each of them stands one place later.
    have htail : ∀ {pool}, e ∈ pool → (appended pool requested).Pairwise fun a b =>
        (e :: requested).idxOf a < (e :: requested).idxOf b := by
      intro pool he
      refine (ih pool).imp_of_mem fun {a b} ha hb hlt => ?_
      have hne : ∀ {c}, c ∈ appended pool requested → e ≠ c := by
        rintro c hc rfl
        exact (mem_appended.1 hc).2 he
      rw [List.idxOf_cons_ne _ (hne ha), List.idxOf_cons_ne _ (hne hb)]
      exact Nat.succ_lt_succ hlt
    rw [appended]
    by_cases he : e ∈ pool
    · rw [if_pos he]
      exact htail he
    · have hlast : e ∈ pool ++ [e] := List.mem_append_right _ (List.mem_singleton_self e)
      rw [if_neg he, List.pairwise_cons]
      refine ⟨fun b hb => ?_, htail hlast⟩
      have hne : e ≠ b := by
        rintro rfl
        exact (mem_appended.1 hb).2 hlast
      rw [List.idxOf_cons_self, List.idxOf_cons_ne _ hne]
      exact Nat.succ_pos _

/-! ### The merged pool -/

theorem mem_merge : entry ∈ merge pool requested ↔ entry ∈ pool ∨ entry ∈ requested := by
  rw [merge, List.mem_append, mem_appended]
  by_cases h : entry ∈ pool <;> simp [h]

theorem merge_eq_self (h : ∀ e ∈ requested, e ∈ pool) : merge pool requested = pool := by
  rw [merge, appended_eq_nil h, List.append_nil]

theorem nodup_merge (h : pool.Nodup) : (merge pool requested).Nodup := by
  refine h.append (nodup_appended pool requested) fun e he hadded => ?_
  exact (mem_appended.1 hadded).2 he

theorem merge_of_find?_eq_some {index : UInt32} (h : find? pool entry = some index) :
    merge pool [entry] = pool := by
  rw [merge_cons, if_pos (find?_eq_some_iff.1 h).1, merge_nil]

theorem merge_of_find?_eq_none (h : find? pool entry = none) :
    merge pool [entry] = pool ++ [entry] := by
  rw [merge_cons, if_neg (find?_eq_none_iff.1 h), merge_nil]

theorem indices_of_find?_eq_some {index : UInt32} (h : find? pool entry = some index) :
    indices pool [entry] = [index] := by
  rw [indices, merge_of_find?_eq_some h, List.map_singleton, (find?_eq_some_iff.1 h).2]

theorem indices_of_find?_eq_none (h : find? pool entry = none) :
    indices pool [entry] = [UInt32.ofNat pool.length] := by
  rw [indices, merge_of_find?_eq_none h, List.map_singleton,
    List.idxOf_append_of_notMem (find?_eq_none_iff.1 h), List.idxOf_cons_self, Nat.add_zero]

/-- An entry keeps its place when more entries are merged. -/
theorem idxOf_merge (h : entry ∈ pool) (requested : List α) :
    (merge pool requested).idxOf entry = pool.idxOf entry :=
  List.idxOf_append_of_mem h

/-! ### Requests in two parts -/

theorem merge_append (pool a b : List α) : merge (merge pool a) b = merge pool (a ++ b) := by
  induction a generalizing pool with
  | nil => rw [merge_nil, List.nil_append]
  | cons e a ih =>
    rw [List.cons_append, merge_cons, merge_cons]
    by_cases he : e ∈ pool
    · rw [if_pos he, if_pos he, ih]
    · rw [if_neg he, if_neg he, ih]

/-- What the pool lacks of the first part is appended before what it lacks then of the second. -/
theorem appended_append (pool a b : List α) :
    appended pool (a ++ b) = appended pool a ++ appended (merge pool a) b := by
  have h := merge_append pool a b
  rw [merge, merge, merge, List.append_assoc] at h
  exact (List.append_cancel_left h).symm

theorem indices_append (pool a b : List α) :
    indices pool (a ++ b) = indices pool a ++ indices (merge pool a) b := by
  simp only [indices, List.map_append, ← merge_append]
  congr 1
  refine List.map_congr_left fun e he => ?_
  rw [idxOf_merge (mem_merge.2 (.inr he)) b]

/-! ### The plan of a merge -/

/-- The look-ups for one request give its index in the merged pool. -/
theorem place_spec (pool pending : List α) (entry : α) :
    pool ++ (place pool pending entry).2 = merge (pool ++ pending) [entry] ∧
      [(place pool pending entry).1] = indices (pool ++ pending) [entry] := by
  have happend := find?_append pool pending entry
  unfold place
  cases hpool : find? pool entry with
  | some index =>
    rw [hpool, Option.some_or] at happend
    exact ⟨(merge_of_find?_eq_some happend).symm, (indices_of_find?_eq_some happend).symm⟩
  | none =>
    cases hpending : find? pending entry with
    | some index =>
      rw [hpool, hpending, Option.none_or, Option.map_some] at happend
      exact ⟨(merge_of_find?_eq_some happend).symm, (indices_of_find?_eq_some happend).symm⟩
    | none =>
      rw [hpool, hpending, Option.none_or, Option.map_none] at happend
      have hmerge := merge_of_find?_eq_none happend
      have hindices := indices_of_find?_eq_none happend
      rw [List.append_assoc] at hmerge
      rw [List.length_append] at hindices
      exact ⟨hmerge.symm, hindices.symm⟩

theorem planFrom_spec (pool pending requested : List α) :
    pool ++ (planFrom pool pending requested).appended = merge (pool ++ pending) requested ∧
      (planFrom pool pending requested).indices = indices (pool ++ pending) requested := by
  induction requested generalizing pending with
  | nil => exact ⟨(merge_nil _).symm, rfl⟩
  | cons entry requested ih =>
    obtain ⟨hpool, hindex⟩ := place_spec pool pending entry
    obtain ⟨hrest, hindices⟩ := ih (place pool pending entry).2
    rw [hpool, merge_append] at hrest
    rw [hpool] at hindices
    have hcons := indices_append (pool ++ pending) [entry] requested
    rw [← hindex, ← hindices] at hcons
    exact ⟨hrest, hcons.symm⟩

/-- The plan of a merge appends what the pool lacks. -/
theorem appended_plan (pool requested : List α) :
    (plan pool requested).appended = appended pool requested := by
  have h := (planFrom_spec pool [] requested).1
  rw [List.append_nil, merge] at h
  exact List.append_cancel_left h

/-- The plan of a merge gives the indices in the merged pool. -/
theorem indices_plan (pool requested : List α) :
    (plan pool requested).indices = indices pool requested := by
  have h := (planFrom_spec pool [] requested).2
  rwa [List.append_nil] at h

end Tripwire.Pool
