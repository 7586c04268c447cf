import Tripwire.Proofs.Workspace.Atomic

/-!
# What requests do to a workspace

A request on one function of a workspace goes step by step. It ends as the
injector has it for that function alone.

* `Workspace.granted`: a workspace with one function changed;
* `Program.Ends`: how a program ends;
* `Workspace.ends_setBreakpoint`, `Workspace.ends_clearBreakpoint`: how the requests end;
* `Workspace.Sound`: every pool that a function holds is there;
* `Workspace.granted_eq`: a change of a function, with its pools;
* `Workspace.Receives`: a workspace after the pools of a function have received entries;
* `Workspace.run_eq`: what a request does to the function that it is made on.
-/

namespace Tripwire

variable {w : Workspace} {index line id : Nat} {f : Function}

namespace Workspace

/-- The workspace with one of its functions, and the registry, changed. -/
def granted (w : Workspace) (index : Nat) (c : Change) : Workspace :=
  let w' := { w with injector := { w.injector with registry := c.registry } }
  let w' := w'.commitNames index (w.stageNames index c.newNames)
  let w' := w'.commitConstants index (w.stageConstants index c.newConstants)
  let w' := (w'.setLines index c.lines).setStackDepth index c.stackDepth
  (w'.setCode index c.edit.code).1

end Workspace

namespace Program

/-- The program ends with the change that `x` computes, or with its fault and without a change. -/
def Ends (p : Program Workspace Unit) (w : Workspace) (index : Nat) (x : Except Fault Change) :
    Prop :=
  p.exec w =
    match x with
    | .ok c => (.ok (), w.granted index c)
    | .error fault => (.error fault, w)

variable {α : Type} {x : Except Fault α} {y : α → Except Fault Change} {z : Except Fault Change}
  {q : α → Program Workspace Unit} {p : Program Workspace Unit} {fault : Fault}

theorem ends_get {q : Workspace → Program Workspace Unit} (h : (q w).Ends w index z) :
    Ends (get >>= q) w index z := by
  unfold Ends
  rw [exec_bind, exec_get]
  exact h

theorem ends_lift (h : ∀ a, x = .ok a → (q a).Ends w index (y a)) :
    Ends (liftM x >>= q) w index (x >>= y) := by
  unfold Ends
  rw [exec_bind, exec_lift]
  cases x with
  | error fault => rfl
  | ok a => exact h a rfl

theorem ends_require {condition : Prop} [Decidable condition] (h : condition → p.Ends w index z) :
    Ends (require condition fault >>= fun _ => p) w index
      (if condition then z else throw fault) := by
  unfold Ends require
  by_cases hcondition : condition
  · rw [if_pos hcondition, if_pos hcondition, exec_bind]
    exact h hcondition
  · rw [if_neg hcondition, if_neg hcondition, exec_bind]
    rfl

end Program

namespace Workspace

open Program

/-- Setting a breakpoint step by step ends as the injector has it. -/
theorem ends_setBreakpoint (hf : w.function? index = some f) :
    (setBreakpoint index line id).Ends w index (w.injector.insertion f line id) := by
  apply ends_get
  rw [hf]
  refine ends_lift fun p hp => ?_
  obtain rfl : p.breakpoint.id = id := by
    simp only [Injector.planInsert, bind_eq_ok_iff, pure_eq_ok_iff] at hp
    obtain ⟨-, -, offset, -, b, -, d, -, rfl⟩ := hp
    rfl
  refine ends_lift fun edit _ => ?_
  refine ends_lift fun lines _ => ?_
  refine ends_require fun _ => ?_
  unfold Ends activate
  simp only [exec_bind, exec_get, exec_lift]
  cases w.injector.registry.activate p.breakpoint with
  | error fault => rfl
  | ok registry => rfl

/-- Changing an entry to itself. -/
theorem modify_eq_self {α : Type} {l : List α} {i : Nat} {a : α} {g : α → α} (hi : l[i]? = some a)
    (hg : g a = a) : l.modify i g = l := by
  apply List.ext_getElem?
  intro j
  rw [List.getElem?_modify]
  by_cases hij : i = j
  · subst hij
    rw [hi, Option.map_eq_map, Option.map_some, if_pos rfl, hg]
  · simp [hij]

/-- A function that needs no more names keeps its pool. -/
theorem commitNames_stage_nil (w w' : Workspace) (index : Nat) :
    w'.commitNames index (w.stageNames index []) = w' := by
  have hstage : w.stageNames index [] = .unchanged := by
    unfold stageNames
    cases w.routines[index]? with
    | none => rfl
    | some r => rfl
  rw [hstage]
  unfold commitNames
  cases hr : w'.routines[index]? with
  | none => rfl
  | some r =>
    show { w' with routines := w'.routines.modify index fun r' => { r' with names := r.names } } = w'
    rw [modify_eq_self hr rfl]

/-- A function that needs no more constants keeps its pool. -/
theorem commitConstants_stage_nil (w w' : Workspace) (index : Nat) :
    w'.commitConstants index (w.stageConstants index []) = w' := by
  have hstage : w.stageConstants index [] = .unchanged := by
    unfold stageConstants
    cases w.routines[index]? with
    | none => rfl
    | some r => rfl
  rw [hstage]
  unfold commitConstants
  cases hr : w'.routines[index]? with
  | none => rfl
  | some r =>
    show { w' with routines := w'.routines.modify index fun r' =>
      { r' with constants := r.constants } } = w'
    rw [modify_eq_self hr rfl]

/-- Clearing a breakpoint step by step ends as the injector has it. -/
theorem ends_clearBreakpoint (hf : w.function? index = some f) :
    (clearBreakpoint index line id).Ends w index (w.injector.removal f line id) := by
  apply ends_get
  rw [hf]
  refine ends_lift fun p _ => ?_
  refine ends_lift fun edit _ => ?_
  refine ends_require fun _ => ?_
  refine ends_lift fun lines _ => ?_
  refine ends_require fun _ => ?_
  unfold Ends deactivate
  simp only [exec_bind, exec_get, exec_lift]
  cases w.injector.registry.deactivate p.breakpoint.id with
  | error fault => rfl
  | ok p =>
    simp only [bind, Except.bind, pure, Except.pure, granted, commitNames_stage_nil,
      commitConstants_stage_nil]
    rfl

/-! ### The function that is changed -/

/-- Every pool that a function holds is in its store. -/
def Sound (w : Workspace) : Prop :=
  ∀ r ∈ w.routines, r.names < w.nameStore.pools.length ∧
    r.constants < w.constantStore.pools.length

/-- A change of a function moves it to pools with the entries that are new. -/
theorem granted_eq {r : Routine} (hr : w.routines[index]? = some r) (c : Change) :
    w.granted index c =
      let names := w.nameStore.append r.names (w.nameOwnerCount r.names) c.newNames
      let constants :=
        w.constantStore.append r.constants (w.constantOwnerCount r.constants) c.newConstants
      { w with
        nameStore := names.1
        constantStore := constants.1
        routines := w.routines.modify index fun r => { r with
          code := c.edit.code
          constants := constants.2
          names := names.2
          lines := c.lines
          stackDepth := c.stackDepth }
        injector := { w.injector with registry := c.registry } } := by
  have hnames : w.stageNames index c.newNames =
      w.nameStore.stage r.names (w.nameOwnerCount r.names) c.newNames := by
    rw [stageNames, hr]
  have hconstants : w.stageConstants index c.newConstants =
      w.constantStore.stage r.constants (w.constantOwnerCount r.constants) c.newConstants := by
    rw [stageConstants, hr]
  simp only [granted, hnames, hconstants, commitNames, commitConstants, hr, modify, setLines,
    setStackDepth, setCode, List.getElem?_modify, List.modify_modify_eq, if_true,
    Option.map_some, Functor.map]
  rfl

/-- The workspace `w'` is `w` with one routine changed, after its pools have received entries. -/
structure Receives (w : Workspace) (index : Nat) (r : Routine) (names : List String)
    (constants : List Constant) (w' : Workspace) : Prop where
  nameStore_eq : w'.nameStore = (w.nameStore.append r.names (w.nameOwnerCount r.names) names).1
  constantStore_eq : w'.constantStore =
    (w.constantStore.append r.constants (w.constantOwnerCount r.constants) constants).1
  routines_eq : ∃ change : Routine → Routine, w'.routines = w.routines.modify index change ∧
    (change r).names = (w.nameStore.append r.names (w.nameOwnerCount r.names) names).2 ∧
    (change r).constants =
      (w.constantStore.append r.constants (w.constantOwnerCount r.constants) constants).2
  held_eq : w'.held = w.held

theorem receives_granted {r : Routine} (hr : w.routines[index]? = some r) (c : Change) :
    Receives w index r c.newNames c.newConstants (w.granted index c) := by
  rw [granted_eq hr]
  exact ⟨rfl, rfl, ⟨_, rfl, rfl, rfl⟩, rfl⟩

theorem forall_mem_modify {α : Type} {l : List α} {i : Nat} {change : α → α} {P : α → Prop}
    (hrest : ∀ a ∈ l, P a) (hi : ∀ a, l[i]? = some a → P (change a)) :
    ∀ a ∈ l.modify i change, P a := by
  intro a ha
  obtain ⟨j, hj⟩ := List.mem_iff_getElem?.1 ha
  rw [List.getElem?_modify] at hj
  obtain ⟨old, hold, rfl⟩ := Option.map_eq_some_iff.1 hj
  by_cases hij : i = j
  · subst hij
    simpa using hi old hold
  · simpa [hij] using hrest old (List.mem_of_getElem? hold)

/-- A workspace whose pools have received entries still has every pool that is held. -/
theorem Receives.sound {w' : Workspace} {r : Routine} {names : List String}
    {constants : List Constant} (hw : w.Sound) (hr : w.routines[index]? = some r)
    (h : Receives w index r names constants w') : w'.Sound := by
  obtain ⟨hnames, hconstants⟩ := hw r (List.mem_of_getElem? hr)
  obtain ⟨change, hroutines, hnamesTo, hconstantsTo⟩ := h.routines_eq
  rw [Sound, hroutines, h.nameStore_eq, h.constantStore_eq]
  refine forall_mem_modify (fun old hold => ?_) fun old hold => ?_
  · obtain ⟨holdNames, holdConstants⟩ := hw old hold
    exact ⟨holdNames.trans_le (PoolStore.length_le_append ..),
      holdConstants.trans_le (PoolStore.length_le_append ..)⟩
  · rw [hr] at hold
    cases hold
    rw [hnamesTo, hconstantsTo]
    exact ⟨PoolStore.lt_append hnames _ _, PoolStore.lt_append hconstants _ _⟩

theorem function?_granted (hw : w.Sound) (hf : w.function? index = some f) (c : Change) :
    (w.granted index c).function? index = some (f.change c) := by
  obtain ⟨r, hr, rfl⟩ := Option.map_eq_some_iff.1 hf
  obtain ⟨hnames, hconstants⟩ := hw r (List.mem_of_getElem? hr)
  rw [granted_eq hr, function?, List.getElem?_modify, hr]
  simp only [Option.map_eq_map, Option.map_some, if_true, fill, Function.change,
    PoolStore.entries_append hnames, PoolStore.entries_append hconstants]

/-- A change of a function keeps every pool that is held. -/
theorem Sound.granted (hw : w.Sound) (hf : w.function? index = some f) (c : Change) :
    (w.granted index c).Sound := by
  obtain ⟨r, hr, -⟩ := Option.map_eq_some_iff.1 hf
  exact (receives_granted hr c).sound hw hr

/-- A program that ends with a change of a function, seen from the function alone. -/
theorem attempt_eq_of_ends {p : Program Workspace Unit} {x : Except Fault Change}
    (h : p.Ends w index x)
    (hw : w.Sound) (hf : w.function? index = some f) :
    match x.map fun c => ({ w.injector with registry := c.registry }, f.change c) with
    | .ok (inj, f') => ∃ w', p.attempt w = (w', none) ∧ w'.Sound ∧ w'.injector = inj ∧
        w'.function? index = some f'
    | .error fault => p.attempt w = (w, some fault) := by
  unfold attempt
  rw [h]
  cases x with
  | error fault => rfl
  | ok c =>
    refine ⟨_, rfl, hw.granted hf c, ?_, function?_granted hw hf c⟩
    obtain ⟨r, hr, -⟩ := Option.map_eq_some_iff.1 hf
    rw [granted_eq hr]

/-- A request on a function of a workspace. -/
def run (w : Workspace) (index : Nat) : Request → Workspace × Option Fault
  | .insert line id => w.insert index line id
  | .remove line id => w.remove index line id

/-- Whatever functions share their pools, a request does to the one it is made on, and to the
injector, what it does to them alone. A request that fails there fails here, and nothing changes. -/
theorem run_eq (hw : w.Sound) (hf : w.function? index = some f) (r : Request) :
    match r.run w.injector f with
    | .ok (inj, f') => ∃ w', w.run index r = (w', none) ∧ w'.Sound ∧ w'.injector = inj ∧
        w'.function? index = some f'
    | .error fault => w.run index r = (w, some fault) := by
  cases r with
  | insert line id => exact attempt_eq_of_ends (ends_setBreakpoint hf) hw hf
  | remove line id => exact attempt_eq_of_ends (ends_clearBreakpoint hf) hw hf

/-! ### Workspaces -/

theorem sound_start (target : CallTarget) : (start target).Sound := fun r hr => by cases hr

theorem Sound.add (hw : w.Sound) (f : Function) : (w.add f).Sound := by
  intro r hr
  simp only [Workspace.add, PoolStore.add, List.length_append, List.length_singleton] at hr ⊢
  rcases List.mem_append.1 hr with hr | hr
  · obtain ⟨hnames, hconstants⟩ := hw r hr
    exact ⟨hnames.trans (Nat.lt_succ_self _), hconstants.trans (Nat.lt_succ_self _)⟩
  · obtain rfl := List.mem_singleton.1 hr
    exact ⟨Nat.lt_succ_self _, Nat.lt_succ_self _⟩

theorem Sound.clone (hw : w.Sound) (index : Nat) : (w.clone index).Sound := by
  intro r hr
  rcases List.mem_append.1 hr with hr | hr
  · exact hw r hr
  · exact hw r (List.mem_of_getElem? (Option.mem_toList.1 hr))

theorem Sound.share (hw : w.Sound) (index other : Nat) : (w.share index other).Sound := by
  unfold Workspace.share
  cases ho : w.routines[other]? with
  | none => exact hw
  | some o =>
    obtain ⟨hnames, hconstants⟩ := hw o (List.mem_of_getElem? ho)
    exact forall_mem_modify hw fun _ _ => ⟨hnames, hconstants⟩

end Workspace

end Tripwire
