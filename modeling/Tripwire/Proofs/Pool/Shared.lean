import Tripwire.Constant
import Tripwire.Instruction
import Tripwire.Pool.Shared
import Tripwire.Proofs.Pool.Merge
import Tripwire.Proofs.Matching

/-!
# Merging into a pool with other holders

A merge extends the pool in place when nobody else holds it, and moves its owner to an
extended copy otherwise. Both ways lead to the same entries at the same places, and one
merge after the other does what a single merge of all requests does.

* `SharedPool.Sound`: holders that hold pools of the store, as they do in every run
  (`SharedPool.sound_of_built`);
* `SharedPool.receive`: entries for the owner's pool, with `SharedPool.receive_append`;
* `SharedPool.entries_merge`: the owner's pool after a merge, however it has received its entries;
* `SharedPool.merge_merge`: two merges as one;
* `Pool.Merges`: what a merge is to do, with `Pool.merges_appended`;
* `SharedPool.merge_spec`: every merge does it, and a second time it does nothing.
-/

namespace Tripwire

namespace SharedPool

variable {α : Type} {s : SharedPool α}

/-- The owner and the others hold pools of the store. -/
structure Sound (s : SharedPool α) : Prop where
  own_lt : s.own < s.store.pools.length
  others_lt : ∀ id ∈ s.others, id < s.store.pools.length

theorem sound_start (pool : List α) : (start pool).Sound where
  own_lt := Nat.zero_lt_one
  others_lt id hid := by cases hid

theorem Sound.share (h : s.Sound) : s.share.Sound where
  own_lt := h.own_lt
  others_lt id hid := by
    rcases List.mem_append.1 hid with hid | hid
    · exact h.others_lt id hid
    · exact List.mem_singleton.1 hid ▸ h.own_lt

theorem Sound.unshare (h : s.Sound) : s.unshare.Sound where
  own_lt := h.own_lt
  others_lt id hid := h.others_lt id (List.mem_of_mem_dropLast hid)

theorem Sound.commit (h : s.Sound) (staged : Staged α) : (s.commit staged).Sound := by
  cases staged with
  | unchanged => exact h
  | inPlace added =>
    have hlength : (s.store.extend s.own added).pools.length = s.store.pools.length := by
      simp [PoolStore.extend]
    exact ⟨hlength ▸ h.own_lt, fun id hid => hlength ▸ h.others_lt id hid⟩
  | replace pool =>
    have hlength : (s.store.add pool).1.pools.length = s.store.pools.length + 1 := by
      simp [PoolStore.add]
    refine ⟨?_, fun id hid => ?_⟩
    · exact hlength ▸ Nat.lt_succ_self _
    · exact hlength ▸ Nat.lt_succ_of_lt (h.others_lt id hid)

/-- Pools with other holders, whoever has joined and left, and whatever was committed. -/
inductive Built : SharedPool α → Prop
  | start (pool : List α) : Built (start pool)
  | share {s : SharedPool α} (h : Built s) : Built s.share
  | unshare {s : SharedPool α} (h : Built s) : Built s.unshare
  | commit {s : SharedPool α} (h : Built s) (staged : Staged α) : Built (s.commit staged)

theorem sound_of_built (h : s.Built) : s.Sound := by
  induction h with
  | start pool => exact sound_start pool
  | share _ ih => exact ih.share
  | unshare _ ih => exact ih.unshare
  | commit _ staged ih => exact ih.commit staged

/-- After a move the owner is the only holder of its pool. -/
theorem Sound.ownerCount_replace (h : s.Sound) (pool : List α) :
    (s.commit (.replace pool)).ownerCount = 1 := by
  have hfresh : s.store.pools.length ∉ s.others := fun hid =>
    Nat.lt_irrefl _ (h.others_lt _ hid)
  show 1 + s.others.count s.store.pools.length = 1
  rw [List.count_eq_zero_of_not_mem hfresh]

/-! ### Entries for the owner's pool -/

/-- The holders after the owner's pool has received entries, in place or as a copy. -/
def receive (s : SharedPool α) (added : List α) : SharedPool α :=
  s.commit (s.store.stage s.own s.ownerCount added)

theorem receive_nil (s : SharedPool α) : s.receive [] = s := rfl

theorem receive_of_le {added : List α} (hadded : added ≠ []) (howners : s.ownerCount ≤ 1) :
    s.receive added = s.commit (.inPlace added) := by
  rw [receive, PoolStore.stage, if_neg (by simpa using hadded), if_pos howners]

theorem receive_of_lt {added : List α} (hadded : added ≠ []) (howners : 1 < s.ownerCount) :
    s.receive added = s.commit (.replace (s.entries ++ added)) := by
  rw [receive, PoolStore.stage, if_neg (by simpa using hadded), if_neg (Nat.not_le_of_lt howners)]
  rfl

theorem entries_receive (h : s.Sound) (added : List α) :
    (s.receive added).entries = s.entries ++ added :=
  PoolStore.entries_append h.own_lt s.ownerCount added

theorem commit_inPlace_inPlace (s : SharedPool α) (a b : List α) :
    (s.commit (.inPlace a)).commit (.inPlace b) = s.commit (.inPlace (a ++ b)) := by
  have hpools : (fun pool : List α => pool ++ b) ∘ (fun pool => pool ++ a) =
      fun pool => pool ++ (a ++ b) := by
    funext pool
    exact List.append_assoc pool a b
  simp only [commit, PoolStore.commit, PoolStore.extend, List.modify_modify_eq, hpools]

theorem commit_replace_inPlace (s : SharedPool α) (pool added : List α) :
    (s.commit (.replace pool)).commit (.inPlace added) = s.commit (.replace (pool ++ added)) := by
  simp only [commit, PoolStore.commit, PoolStore.extend, PoolStore.add, modify_append_length]

/-- Entries received one after the other are received at once. When others hold the pool, the owner
moves with the first of them, and then it is alone. -/
theorem receive_append (h : s.Sound) (a b : List α) :
    (s.receive a).receive b = s.receive (a ++ b) := by
  by_cases ha : a = []
  · rw [ha, receive_nil, List.nil_append]
  by_cases hb : b = []
  · rw [hb, receive_nil, List.append_nil]
  have hab : a ++ b ≠ [] := List.append_ne_nil_of_left_ne_nil ha b
  by_cases howners : s.ownerCount ≤ 1
  · have hsame : (s.commit (.inPlace a)).ownerCount ≤ 1 := howners
    rw [receive_of_le ha howners, receive_of_le hb hsame, receive_of_le hab howners,
      commit_inPlace_inPlace]
  · have hshared := Nat.lt_of_not_le howners
    rw [receive_of_lt ha hshared, receive_of_le hb (h.ownerCount_replace _).le,
      receive_of_lt hab hshared, commit_replace_inPlace, List.append_assoc]

/-! ### Merges -/

variable [DecidableEq α]

theorem merge_eq (s : SharedPool α) (requested : List α) : s.merge requested =
    (s.receive (Pool.appended s.entries requested), Pool.indices s.entries requested) := by
  rw [merge, stage, receive, Pool.appended_plan, Pool.indices_plan]

/-- The owner holds the merged pool, be it the old one or a copy. -/
theorem entries_merge (h : s.Sound) (requested : List α) :
    (s.merge requested).1.entries = Pool.merge s.entries requested := by
  rw [merge_eq, Pool.merge]
  exact entries_receive h _

/-- Two merges do what one merge of all their requests does. -/
theorem merge_merge (h : s.Sound) (a b : List α) :
    ((s.merge a).1.merge b).1 = (s.merge (a ++ b)).1 ∧
      (s.merge a).2 ++ ((s.merge a).1.merge b).2 = (s.merge (a ++ b)).2 := by
  have hentries := entries_merge h a
  rw [merge_eq (s.merge a).1, hentries, merge_eq s a, merge_eq s (a ++ b), Pool.appended_append,
    Pool.indices_append]
  exact ⟨receive_append h _ _, rfl⟩

end SharedPool

/-! ### What a merge is to do -/

namespace Pool

variable {α : Type} [DecidableEq α]

/-- The first place of an entry in a pool. -/
def FirstAt (pool : List α) (entry : α) (place : Nat) : Prop :=
  pool[place]? = some entry ∧ ∀ j < place, pool[j]? ≠ some entry

theorem firstAt_idxOf {pool : List α} {entry : α} (h : entry ∈ pool) :
    FirstAt pool entry (pool.idxOf entry) :=
  ⟨List.getElem?_idxOf h, fun _ hj => getElem?_ne_of_lt_idxOf hj⟩

/-- What has to be appended to a pool for some requests, and the indices of the requests. -/
structure Merges (pool requested added : List α) (indices : List UInt32) : Prop where
  /-- Each index is the first place of its entry, told in 32 bits. -/
  places : List.Forall₂ (fun entry index =>
    ∃ place, FirstAt (pool ++ added) entry place ∧ index = UInt32.ofNat place) requested indices
  /-- As long as 32 bits are enough for all places, each index is the first place itself. -/
  firstAt_toNat : (pool ++ added).length ≤ limit32 → List.Forall₂ (fun entry index =>
    FirstAt (pool ++ added) entry index.toNat) requested indices
  mem_requested : ∀ e ∈ added, e ∈ requested
  notMem_pool : ∀ e ∈ added, e ∉ pool
  nodup : added.Nodup
  /-- Entries are appended in the order of their first requests. -/
  order : added.Pairwise fun a b => requested.idxOf a < requested.idxOf b

theorem merges_appended (pool requested : List α) :
    Merges pool requested (appended pool requested) (indices pool requested) where
  places := by
    rw [indices, List.forall₂_map_right_iff, List.forall₂_same]
    exact fun e he => ⟨_, firstAt_idxOf (mem_merge.2 (.inr he)), rfl⟩
  firstAt_toNat hsize := by
    rw [indices, List.forall₂_map_right_iff, List.forall₂_same]
    intro e he
    have hmem : e ∈ merge pool requested := mem_merge.2 (.inr he)
    have hlt : (merge pool requested).idxOf e < UInt32.size :=
      (List.idxOf_lt_length_of_mem hmem).trans_le hsize
    rw [UInt32.toNat_ofNat_of_lt' hlt]
    exact firstAt_idxOf hmem
  mem_requested e he := (mem_appended.1 he).1
  notMem_pool e he := (mem_appended.1 he).2
  nodup := nodup_appended pool requested
  order := pairwise_appended pool requested

end Pool

namespace SharedPool

variable {α : Type} [DecidableEq α] {s : SharedPool α}

/-- A second merge of the same requests finds them all in the pool. -/
theorem merge_again (h : s.Sound) (requested : List α) :
    (s.merge requested).1.merge requested = s.merge requested := by
  have hall : ∀ e ∈ requested, e ∈ Pool.merge s.entries requested := fun e he =>
    Pool.mem_merge.2 (.inr he)
  have hindices : Pool.indices (Pool.merge s.entries requested) requested =
      Pool.indices s.entries requested := by
    rw [Pool.indices, Pool.indices, Pool.merge_eq_self hall]
  rw [merge_eq (s.merge requested).1, entries_merge h, Pool.appended_eq_nil hall, hindices,
    receive_nil, merge_eq]

/-- A merge keeps the pool and appends what is missing of the requested entries, once each, whoever
else holds the pool. Its indices are the first places of the entries in 32 bits, and these places
themselves as long as the merged pool has no more than `limit32` entries. A second merge of the same
requests changes nothing. -/
theorem merge_spec (h : s.Sound) (requested : List α) :
    ∃ added, (s.merge requested).1.entries = s.entries ++ added ∧
      Pool.Merges s.entries requested added (s.merge requested).2 ∧
      (s.merge requested).1.merge requested = s.merge requested := by
  refine ⟨Pool.appended s.entries requested, entries_merge h requested, ?_, merge_again h requested⟩
  rw [merge_eq]
  exact Pool.merges_appended s.entries requested

/-- A pool with two equal entries that somebody else holds too. -/
def zeroPool : SharedPool Constant := (start [.int 1, .float ⟨0⟩, .int 1]).share

/-- Minus zero, zero, what is no number, the entry that stands twice, and no number again. -/
def zeroRequests : List Constant :=
  [.float ⟨0x8000000000000000⟩, .float ⟨0⟩, .float ⟨0x7ff8000000000000⟩, .int 1,
    .float ⟨0x7ff8000000000000⟩]

theorem exists_merge_zero : zeroPool.Sound ∧ (zeroPool.merge zeroRequests).2 = [3, 1, 4, 0, 4] ∧
    ∃ added, (zeroPool.merge zeroRequests).1.entries = zeroPool.entries ++ added ∧
      Pool.Merges zeroPool.entries zeroRequests added (zeroPool.merge zeroRequests).2 ∧
      (zeroPool.merge zeroRequests).1.merge zeroRequests = zeroPool.merge zeroRequests := by
  have hsound : zeroPool.Sound := (sound_start _).share
  exact ⟨hsound, by decide, merge_spec hsound zeroRequests⟩

end SharedPool

end Tripwire
