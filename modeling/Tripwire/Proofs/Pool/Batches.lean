import Tripwire.Proofs.Assembly.Pools
import Tripwire.Proofs.Pool.Shared

/-!
# Requests in batches

It does not matter to a pool in how many merges its requests come. The pools of a
function under construction take one request at a time, by a look-up of their own, and
come to the same entries and indices as one merge of all of them.

* `addEach`: values added one by one, with `addEach_spec`;
* `Builder.indices_addConstant`, `Builder.indices_addName`: one value is added as it is merged;
* `SharedPool.merge_append_spec`: requests in two merges or one by one.
-/

namespace Tripwire

/-- Adds values one by one and collects their indices. -/
def addEach {σ α : Type} (add : σ → α → σ × UInt32) (s : σ) : List α → σ × List UInt32
  | [] => (s, [])
  | value :: values =>
    let (s, index) := add s value
    let (s, indices) := addEach add s values
    (s, index :: indices)

/-- When each addition merges its value into a pool, all of them merge all values. -/
theorem addEach_spec {σ α : Type} [DecidableEq α] {add : σ → α → σ × UInt32} {pool : σ → List α}
    (hpool : ∀ s value, pool (add s value).1 = Pool.merge (pool s) [value])
    (hindex : ∀ s value, [(add s value).2] = Pool.indices (pool s) [value])
    (s : σ) (values : List α) :
    pool (addEach add s values).1 = Pool.merge (pool s) values ∧
      (addEach add s values).2 = Pool.indices (pool s) values := by
  induction values generalizing s with
  | nil => exact ⟨(Pool.merge_nil _).symm, rfl⟩
  | cons value values ih =>
    obtain ⟨hentries, hindices⟩ := ih (add s value).1
    rw [hpool] at hentries hindices
    constructor
    · rw [← List.singleton_append, ← Pool.merge_append]
      exact hentries
    · rw [← List.singleton_append, Pool.indices_append, ← hindex, ← hindices]
      rfl

namespace Builder

theorem indices_addConstant (b : Builder) (value : Constant) :
    [(b.addConstant value).2] = Pool.indices b.constants [value] := by
  unfold addConstant
  cases hfind : Pool.find? b.constants value with
  | some index => exact (Pool.indices_of_find?_eq_some hfind).symm
  | none => exact (Pool.indices_of_find?_eq_none hfind).symm

theorem indices_addName (b : Builder) (name : String) :
    [(b.addName name).2] = Pool.indices b.names [name] := by
  unfold addName
  cases hfind : Pool.find? b.names name with
  | some index => exact (Pool.indices_of_find?_eq_some hfind).symm
  | none => exact (Pool.indices_of_find?_eq_none hfind).symm

end Builder

namespace SharedPool

/-- Values that are added one by one to a pool of its own come to what one merge of them does. -/
theorem addEach_eq_merge {σ α : Type} [DecidableEq α] {add : σ → α → σ × UInt32} {pool : σ → List α}
    (hpool : ∀ s value, pool (add s value).1 = Pool.merge (pool s) [value])
    (hindex : ∀ s value, [(add s value).2] = Pool.indices (pool s) [value])
    (s : σ) (values : List α) :
    pool (addEach add s values).1 = ((start (pool s)).merge values).1.entries ∧
      (addEach add s values).2 = ((start (pool s)).merge values).2 := by
  rw [entries_merge (sound_start _), merge_eq, entries_start]
  exact addEach_spec hpool hindex s values

/-- Two merges do what one merge of all their requests does, whoever else holds the pool. A function
under construction that is given constants or names one by one comes to the pool and the indices of
one merge, each in 32 bits. -/
theorem merge_append_spec :
    (∀ {α : Type} [DecidableEq α] {s : SharedPool α}, s.Sound → ∀ a b : List α,
      ((s.merge a).1.merge b).1 = (s.merge (a ++ b)).1 ∧
        (s.merge a).2 ++ ((s.merge a).1.merge b).2 = (s.merge (a ++ b)).2) ∧
    (∀ (b : Builder) (values : List Constant),
      (addEach Builder.addConstant b values).1.constants =
          ((start b.constants).merge values).1.entries ∧
        (addEach Builder.addConstant b values).2 = ((start b.constants).merge values).2) ∧
    ∀ (b : Builder) (values : List String),
      (addEach Builder.addName b values).1.names = ((start b.names).merge values).1.entries ∧
        (addEach Builder.addName b values).2 = ((start b.names).merge values).2 :=
  ⟨fun h a b => merge_merge h a b,
    addEach_eq_merge Builder.constants_addConstant Builder.indices_addConstant,
    addEach_eq_merge Builder.names_addName Builder.indices_addName⟩

/-- Requests with repeats in each of two parts and across them, for a pool that somebody else holds
and for a function without constants. -/
theorem exists_merge_append_zero : zeroPool.Sound ∧
    ((zeroPool.merge (zeroRequests.take 3)).1.merge (zeroRequests.drop 3)).1 =
      (zeroPool.merge zeroRequests).1 ∧
    (zeroPool.merge (zeroRequests.take 3)).2 ++
        ((zeroPool.merge (zeroRequests.take 3)).1.merge (zeroRequests.drop 3)).2 =
      (zeroPool.merge zeroRequests).2 ∧
    (addEach Builder.addConstant (.start "zeros") zeroRequests).1.constants =
      ((start []).merge zeroRequests).1.entries ∧
    (addEach Builder.addConstant (.start "zeros") zeroRequests).2 = [0, 1, 2, 3, 2] := by
  have hsound : zeroPool.Sound := (sound_start _).share
  obtain ⟨hparts, hconstants, -⟩ := merge_append_spec
  obtain ⟨hstate, hindices⟩ := hparts hsound (zeroRequests.take 3) (zeroRequests.drop 3)
  exact ⟨hsound, hstate, hindices, (hconstants (.start "zeros") zeroRequests).1, by decide⟩

end SharedPool

end Tripwire
