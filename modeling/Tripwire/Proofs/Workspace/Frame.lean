import Tripwire.Proofs.Workspace.Granted

/-!
# Functions that share pools

Functions of a workspace may hold the same pools, in any pattern. A call on one of
them reaches no other one: a pool with other holders stays as it is, and the
function that needs more entries moves to a copy.

* `PoolStore.append_snd`, `PoolStore.entries_append_of_lt`: the pool that receives entries, and
  the pools that do not;
* `Operation`, `Workspace.perform`: the calls;
* `Workspace.receives_perform`: the change that a call makes;
* `PoolStore.Grows`: how the pool of one function changes;
* `Workspace.Isolated`: what a call changes, and what it leaves alone;
* `Workspace.Built`: workspaces, whatever was shared, held and called before;
* `Workspace.isolated_of_built`: calls on them are isolated.
-/

namespace Tripwire

/-! ### Entries for one pool of a store -/

namespace PoolStore

variable {α : Type} {s : PoolStore α} {id other : PoolId} {owners : Nat} {added : List α}

/-- The owner moves, to a new pool, when there are entries to add and others hold the pool. -/
theorem append_snd (s : PoolStore α) (id : PoolId) (owners : Nat) (added : List α) :
    (s.append id owners added).2 = if 1 < owners ∧ added ≠ [] then s.pools.length else id := by
  unfold append stage
  by_cases hempty : added = []
  · simp [hempty, commit]
  · by_cases howners : owners ≤ 1
    · simp [hempty, howners, commit]
    · simp [hempty, howners, commit, add, Nat.lt_of_not_le howners]

/-- No pool changes but one that has a single owner. -/
theorem entries_append_of_lt (hother : other < s.pools.length) (hshared : other = id → 1 < owners)
    (added : List α) : (s.append id owners added).1.entries other = s.entries other := by
  unfold append stage
  by_cases hempty : added.isEmpty
  · rw [if_pos hempty]
    rfl
  · rw [if_neg hempty]
    by_cases howners : owners ≤ 1
    · rw [if_pos howners]
      have hne : other ≠ id := fun heq => Nat.not_lt_of_le howners (hshared heq)
      exact entries_extend_of_ne hne added
    · rw [if_neg howners]
      exact entries_add_of_lt hother _

end PoolStore

/-- A member of a list is not the only one of its kind exactly when another place has one. -/
theorem one_lt_countP_iff {α : Type} {l : List α} {p : α → Bool} {i : Nat} {a : α}
    (hi : l[i]? = some a) (ha : p a = true) :
    1 < l.countP p ↔ ∃ j, j ≠ i ∧ ∃ b, l[j]? = some b ∧ p b = true := by
  obtain ⟨hlt, rfl⟩ := List.getElem?_eq_some_iff.1 hi
  have hcount := (List.getElem_cons_eraseIdx_perm hlt).countP_eq p
  rw [List.countP_cons_of_pos ha] at hcount
  rw [← hcount, Nat.lt_add_left_iff_pos, List.countP_pos_iff]
  constructor
  · rintro ⟨b, hb, hpb⟩
    obtain ⟨j, hj, hget⟩ := List.mem_eraseIdx_iff_getElem?.1 hb
    exact ⟨j, hj, b, hget, hpb⟩
  · rintro ⟨j, hj, b, hget, hpb⟩
    exact ⟨b, List.mem_eraseIdx_iff_getElem?.2 ⟨j, hj, hget⟩, hpb⟩

/-! ### Calls -/

/-- A call on one function: a request to the injector, or entries for one of the two pools. -/
inductive Operation
  | request (r : Request)
  | mergeNames (requested : List String)
  | mergeConstants (requested : List Constant)
  deriving DecidableEq, Repr

namespace Workspace

/-- The workspace after a call on the function with an index. -/
def perform (w : Workspace) (index : Nat) : Operation → Workspace
  | .request r => (w.run index r).1
  | .mergeNames requested => (w.mergeNames index requested).1
  | .mergeConstants requested => (w.mergeConstants index requested).1

/-- The names that a call wants in the pool of its function. A request that is refused wants
none. -/
def wantedNames (w : Workspace) (index : Nat) : Operation → List String
  | .request (.insert line id) =>
    if (w.insert index line id).2.isNone then w.injector.callNames else []
  | .request (.remove _ _) => []
  | .mergeNames requested => requested
  | .mergeConstants _ => []

/-- The constants that a call wants in the pool of its function. A request that is refused wants
none. -/
def wantedConstants (w : Workspace) (index : Nat) : Operation → List Constant
  | .request (.insert line id) => if (w.insert index line id).2.isNone then [.int id] else []
  | .request (.remove _ _) => []
  | .mergeNames _ => []
  | .mergeConstants requested => requested

variable {w w' : Workspace} {index line id : Nat} {r : Routine} {f : Function}

theorem Receives.refl (w : Workspace) (index : Nat) (r : Routine) : Receives w index r [] [] w :=
  ⟨rfl, rfl, ⟨fun r => r, (List.modify_id _ _).symm, rfl, rfl⟩, rfl⟩

theorem receives_appendNames (hr : w.routines[index]? = some r) (added : List String) :
    Receives w index r added [] (w.appendNames index added) := by
  rw [appendNames, stageNames, commitNames, hr]
  exact ⟨rfl, rfl, ⟨_, rfl, rfl, rfl⟩, rfl⟩

theorem receives_appendConstants (hr : w.routines[index]? = some r) (added : List Constant) :
    Receives w index r [] added (w.appendConstants index added) := by
  rw [appendConstants, stageConstants, commitConstants, hr]
  exact ⟨rfl, rfl, ⟨_, rfl, rfl, rfl⟩, rfl⟩

/-- A request to set a breakpoint that is granted adds what its call refers to. -/
theorem newNames_of_insertion {inj : Injector} {c : Change}
    (h : inj.insertion f line id = .ok c) :
    c.newNames = Pool.appended f.names inj.callNames ∧
      c.newConstants = Pool.appended f.constants [.int id] := by
  simp only [Injector.insertion, Injector.planInsert, Injector.changeInsert, bind_eq_ok_iff,
    pure_eq_ok_iff] at h
  obtain ⟨p, ⟨-, -, offset, -, b, -, d, -, rfl⟩, edit, -, lines, -, h⟩ := h
  split at h
  · simp only [bind_eq_ok_iff, pure_eq_ok_iff] at h
    obtain ⟨registry, -, rfl⟩ := h
    exact ⟨rfl, rfl⟩
  · cases h

/-- A request to clear a breakpoint adds nothing. -/
theorem newNames_of_removal {inj : Injector} {c : Change} (h : inj.removal f line id = .ok c) :
    c.newNames = [] ∧ c.newConstants = [] := by
  simp only [Injector.removal, Injector.changeRemove, bind_eq_ok_iff] at h
  obtain ⟨p, -, edit, -, h⟩ := h
  split at h
  · simp only [bind_eq_ok_iff] at h
    obtain ⟨lines, -, h⟩ := h
    split at h
    · simp only [bind_eq_ok_iff, pure_eq_ok_iff, Prod.exists] at h
      obtain ⟨b, registry, -, rfl⟩ := h
      exact ⟨rfl, rfl⟩
    · cases h
  · cases h

/-- A call changes the function that it is made on, and adds to its pools what they lack. -/
theorem receives_perform (hr : w.routines[index]? = some r) (op : Operation) :
    Receives w index r (Pool.appended (w.nameStore.entries r.names) (w.wantedNames index op))
      (Pool.appended (w.constantStore.entries r.constants) (w.wantedConstants index op))
      (w.perform index op) := by
  have hf : w.function? index = some (w.fill r) := by rw [function?, hr]; rfl
  cases op with
  | mergeNames requested =>
    have hpool : (w.function? index).elim [] Function.names = w.nameStore.entries r.names := by
      rw [hf]
      rfl
    rw [perform, mergeNames, hpool]
    exact receives_appendNames hr _
  | mergeConstants requested =>
    have hpool : (w.function? index).elim [] Function.constants =
        w.constantStore.entries r.constants := by
      rw [hf]
      rfl
    rw [perform, mergeConstants, hpool]
    exact receives_appendConstants hr _
  | request request =>
    cases request with
    | insert line id =>
      have hends : (setBreakpoint index line id).Ends w index
          (w.injector.insertion (w.fill r) line id) := ends_setBreakpoint hf
      unfold Program.Ends at hends
      rw [wantedNames, wantedConstants, perform, run, insert, Program.attempt, hends]
      cases hc : w.injector.insertion (w.fill r) line id with
      | error fault => exact .refl w index r
      | ok c =>
        obtain ⟨hnames, hconstants⟩ := newNames_of_insertion hc
        have hreceives := receives_granted hr c
        rw [hnames, hconstants] at hreceives
        exact hreceives
    | remove line id =>
      have hends : (clearBreakpoint index line id).Ends w index
          (w.injector.removal (w.fill r) line id) := ends_clearBreakpoint hf
      unfold Program.Ends at hends
      rw [wantedNames, wantedConstants, perform, run, remove, Program.attempt, hends]
      cases hc : w.injector.removal (w.fill r) line id with
      | error fault => exact .refl w index r
      | ok c =>
        obtain ⟨hnames, hconstants⟩ := newNames_of_removal hc
        have hreceives := receives_granted hr c
        rw [hnames, hconstants] at hreceives
        exact hreceives

/-- A call on no function does nothing. -/
theorem perform_of_none (hr : w.routines[index]? = none) (op : Operation) :
    w.perform index op = w := by
  have hf : w.function? index = none := by rw [function?, hr]; rfl
  cases op with
  | mergeNames requested => rw [perform, mergeNames, appendNames, commitNames, hr]
  | mergeConstants requested =>
    rw [perform, mergeConstants, appendConstants, commitConstants, hr]
  | request request =>
    cases request with
    | insert line id =>
      rw [perform, run, insert, Program.attempt, setBreakpoint, Program.exec_bind, Program.exec_get]
      simp only [hf]
      rfl
    | remove line id =>
      rw [perform, run, remove, Program.attempt, clearBreakpoint, Program.exec_bind, Program.exec_get]
      simp only [hf]
      rfl

/-! ### The functions that are left alone -/

/-- The pool of names that each function holds. -/
def namesOf (w : Workspace) (index : Nat) : Option PoolId := w.routines[index]?.map Routine.names

/-- The pool of constants that each function holds. -/
def constantsOf (w : Workspace) (index : Nat) : Option PoolId :=
  w.routines[index]?.map Routine.constants

theorem one_lt_nameOwnerCount_iff (hr : w.routines[index]? = some r) :
    1 < w.nameOwnerCount r.names ↔ ∃ j, j ≠ index ∧ w.namesOf j = some r.names := by
  rw [nameOwnerCount, one_lt_countP_iff hr (by simp)]
  simp [namesOf]

theorem one_lt_constantOwnerCount_iff (hr : w.routines[index]? = some r) :
    1 < w.constantOwnerCount r.constants ↔
      ∃ j, j ≠ index ∧ w.constantsOf j = some r.constants := by
  rw [constantOwnerCount, one_lt_countP_iff hr (by simp)]
  simp [constantsOf]

/-- No other function is reached, also when it holds the same pools. -/
theorem Receives.others {names : List String} {constants : List Constant} (hw : w.Sound)
    (hr : w.routines[index]? = some r) (h : Receives w index r names constants w') {j : Nat}
    (hj : j ≠ index) : w'.routines[j]? = w.routines[j]? ∧ w'.function? j = w.function? j := by
  obtain ⟨change, hroutines, -, -⟩ := h.routines_eq
  have hsame : w'.routines[j]? = w.routines[j]? := by
    rw [hroutines, List.getElem?_modify]
    simp [Ne.symm hj]
  refine ⟨hsame, ?_⟩
  rw [function?, function?, hsame]
  cases ho : w.routines[j]? with
  | none => rfl
  | some o =>
    obtain ⟨hnames, hconstants⟩ := hw o (List.mem_of_getElem? ho)
    have hnamesShared : o.names = r.names → 1 < w.nameOwnerCount r.names := fun heq =>
      (one_lt_nameOwnerCount_iff hr).2 ⟨j, hj, by rw [namesOf, ho, Option.map_some, heq]⟩
    have hconstantsShared : o.constants = r.constants →
        1 < w.constantOwnerCount r.constants := fun heq =>
      (one_lt_constantOwnerCount_iff hr).2 ⟨j, hj, by rw [constantsOf, ho, Option.map_some, heq]⟩
    simp only [Option.map_some, fill, h.nameStore_eq, h.constantStore_eq,
      PoolStore.entries_append_of_lt hnames hnamesShared,
      PoolStore.entries_append_of_lt hconstants hconstantsShared]

end Workspace

/-- The pool of the holder with an index, which was number `id` of the store `s` and is number `id'`
of `s'`, has what was wanted behind its old entries. The holder has moved to a new pool exactly when
another one held the old pool and something had to be added. `held` tells which pool each of the
holders held. -/
structure PoolStore.Grows {α : Type} [DecidableEq α] (s s' : PoolStore α)
    (held : Nat → Option PoolId) (index : Nat) (id id' : PoolId) (wanted : List α) : Prop where
  entries_eq : s'.entries id' = Pool.merge (s.entries id) wanted
  isPrefix : s.entries id <+: s'.entries id'
  moved_iff : id' ≠ id ↔
    (∃ j, j ≠ index ∧ held j = some id) ∧ ∃ a ∈ wanted, a ∉ s.entries id
  fresh : id' ≠ id → s.pools.length ≤ id'

theorem PoolStore.grows_append {α : Type} [DecidableEq α] {s : PoolStore α}
    {held : Nat → Option PoolId} {index owners : Nat} {id : PoolId} (hid : id < s.pools.length)
    (howners : 1 < owners ↔ ∃ j, j ≠ index ∧ held j = some id) (wanted : List α) :
    s.Grows (s.append id owners (Pool.appended (s.entries id) wanted)).1 held index id
      (s.append id owners (Pool.appended (s.entries id) wanted)).2 wanted where
  entries_eq := entries_append hid owners _
  isPrefix := by
    rw [entries_append hid]
    exact List.prefix_append _ _
  moved_iff := by
    rw [append_snd, ← howners, ← Pool.appended_ne_nil_iff, ite_ne_right_iff]
    exact and_iff_left hid.ne'
  fresh hmoved := by
    rw [append_snd] at hmoved ⊢
    split at hmoved
    · rw [if_pos ‹_›]
    · exact absurd rfl hmoved

namespace Workspace

variable {w : Workspace} {index : Nat}

/-- A call on the function with an index changes neither the other functions nor the code that
activations run on, and the pools of that function grow. -/
structure Isolated (w : Workspace) (index : Nat) (op : Operation) : Prop where
  others : ∀ j, j ≠ index → (w.perform index op).routines[j]? = w.routines[j]? ∧
    (w.perform index op).function? j = w.function? j
  held_eq : (w.perform index op).held = w.held
  pools : ∀ r, w.routines[index]? = some r → ∃ r',
    (w.perform index op).routines[index]? = some r' ∧
      w.nameStore.Grows (w.perform index op).nameStore w.namesOf index r.names r'.names
        (w.wantedNames index op) ∧
      w.constantStore.Grows (w.perform index op).constantStore w.constantsOf index r.constants
        r'.constants (w.wantedConstants index op)

theorem Sound.isolated (hw : w.Sound) (index : Nat) (op : Operation) : w.Isolated index op := by
  cases hr : w.routines[index]? with
  | none =>
    have hsame := perform_of_none hr op
    refine ⟨fun j _ => ?_, ?_, fun r hr' => ?_⟩
    · rw [hsame]
      exact ⟨rfl, rfl⟩
    · rw [hsame]
    · rw [hr] at hr'
      cases hr'
  | some r =>
    have hreceives := receives_perform hr op
    refine ⟨fun j hj => hreceives.others hw hr hj, hreceives.held_eq, fun r₀ hr₀ => ?_⟩
    rw [hr] at hr₀
    cases hr₀
    obtain ⟨hnames, hconstants⟩ := hw r (List.mem_of_getElem? hr)
    obtain ⟨change, hroutines, hnamesTo, hconstantsTo⟩ := hreceives.routines_eq
    refine ⟨change r, ?_, ?_, ?_⟩
    · rw [hroutines, List.getElem?_modify, hr]
      simp
    · rw [hreceives.nameStore_eq, hnamesTo]
      exact PoolStore.grows_append hnames (one_lt_nameOwnerCount_iff hr) _
    · rw [hreceives.constantStore_eq, hconstantsTo]
      exact PoolStore.grows_append hconstants (one_lt_constantOwnerCount_iff hr) _

theorem Sound.perform (hw : w.Sound) (index : Nat) (op : Operation) :
    (w.perform index op).Sound := by
  cases hr : w.routines[index]? with
  | none => rwa [perform_of_none hr]
  | some r => exact (receives_perform hr op).sound hw hr

/-! ### Any pattern of sharing, any calls -/

/-- Workspaces: functions are added, cloned and made to share their pools, code is held, and calls
are made by one injector after another, in any order. -/
inductive Built : Workspace → Prop
  | start (target : CallTarget) : Built (start target)
  | add {w : Workspace} (h : Built w) (f : Function) : Built (w.add f)
  | clone {w : Workspace} (h : Built w) (index : Nat) : Built (w.clone index)
  | share {w : Workspace} (h : Built w) (index other : Nat) : Built (w.share index other)
  | hold {w : Workspace} (h : Built w) (index : Nat) : Built (w.hold index)
  | engage {w : Workspace} (h : Built w) (injector : Injector) : Built { w with injector }
  | perform {w : Workspace} (h : Built w) (index : Nat) (op : Operation) :
    Built (w.perform index op)

theorem sound_of_built (h : Built w) : w.Sound := by
  induction h with
  | start target => exact sound_start target
  | add _ f ih => exact ih.add f
  | clone _ index ih => exact ih.clone index
  | share _ index other ih => exact ih.share index other
  | hold _ index ih => exact ih
  | engage _ injector ih => exact ih
  | perform _ index op ih => exact ih.perform index op

/-- However functions have come to share their pools, and whatever calls were made before, a call
on one function leaves all others as they are. -/
theorem isolated_of_built (h : Built w) (index : Nat) (op : Operation) : w.Isolated index op :=
  (sound_of_built h).isolated index op

/-- A function and its clone: entries for one of the two move it to a pool of its own. -/
theorem exists_isolated_clone :
    (((start .standard).add .twoLines).clone 0).Isolated 0 (.mergeNames ["exit"]) ∧
      (((start .standard).add .twoLines).clone 0).nameOwnerCount 0 = 2 ∧
      ((((start .standard).add .twoLines).clone 0).perform 0 (.mergeNames ["exit"])).routines.map
        Routine.names = [1, 0] :=
  ⟨isolated_of_built (((Built.start .standard).add .twoLines).clone 0) 0 (.mergeNames ["exit"]),
    by decide, by decide⟩

end Workspace

end Tripwire
