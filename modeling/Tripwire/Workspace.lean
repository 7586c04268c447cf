import Tripwire.Injector
import Tripwire.Pool.Store
import Tripwire.Program

/-!
# Workspaces

A workspace holds functions that may share their pools, and one injector for all
of them. A function of the workspace refers to its pools by number.

* `Workspace.function?`: a function with its pools filled in;
* `Workspace.setBreakpoint`, `Workspace.clearBreakpoint`: breakpoints in one of the functions, step
  by step;
* `Workspace.insert`, `Workspace.remove`: the requests, with the workspace that each leaves;
* `Workspace.share`, `Workspace.clone`: the ways to come to share pools;
* `Workspace.namesOwners`, `Workspace.constantsOwners`: who shares with whom;
* `Workspace.hold`: code as an activation that has begun keeps running it.
-/

namespace Tripwire

/-- A function that refers to its pools by number. -/
structure Routine where
  name : String
  code : List UInt8
  constants : PoolId
  names : PoolId
  lines : LineTable
  stackDepth : Nat
  deriving DecidableEq, Repr

/-- Functions with their pools, and the injector that serves them. `held` is the code that
activations run on, as it was when each began. -/
structure Workspace where
  nameStore : PoolStore String
  constantStore : PoolStore Constant
  routines : List Routine
  injector : Injector
  held : List (List UInt8)
  deriving DecidableEq, Repr

namespace Workspace

/-- A workspace without functions. -/
def start (target : CallTarget) : Workspace := ⟨.empty, .empty, [], .start target, []⟩

/-! ### Functions -/

/-- A routine with its pools filled in. -/
def fill (w : Workspace) (r : Routine) : Function :=
  ⟨r.name, r.code, w.constantStore.entries r.constants, w.nameStore.entries r.names, r.lines,
    r.stackDepth⟩

/-- The function with an index. -/
def function? (w : Workspace) (index : Nat) : Option Function := w.routines[index]?.map w.fill

/-- All functions. -/
def functions (w : Workspace) : List Function := w.routines.map w.fill

/-- Adds a function with pools of its own. -/
def add (w : Workspace) (f : Function) : Workspace :=
  let (constantStore, constants) := w.constantStore.add f.constants
  let (nameStore, names) := w.nameStore.add f.names
  { w with
    nameStore, constantStore
    routines := w.routines ++ [⟨f.name, f.code, constants, names, f.lines, f.stackDepth⟩] }

/-- Changes one routine. -/
def modify (w : Workspace) (index : Nat) (change : Routine → Routine) : Workspace :=
  { w with routines := w.routines.modify index change }

/-- Replaces the code of one function and returns what it was. -/
def setCode (w : Workspace) (index : Nat) (code : List UInt8) : Workspace × List UInt8 :=
  (w.modify index fun r => { r with code }, (w.routines[index]?.map Routine.code).getD [])

/-- Replaces the line table of one function. -/
def setLines (w : Workspace) (index : Nat) (lines : LineTable) : Workspace :=
  w.modify index fun r => { r with lines }

/-- Replaces the stack budget of one function. -/
def setStackDepth (w : Workspace) (index : Nat) (stackDepth : Nat) : Workspace :=
  w.modify index fun r => { r with stackDepth }

/-- Holds the present code of one function. Later changes of the function leave it as it is. -/
def hold (w : Workspace) (index : Nat) : Workspace :=
  { w with held := w.held ++ (w.routines[index]?.map Routine.code).toList }

/-! ### Owners -/

/-- The number of functions that hold a pool of names. -/
def nameOwnerCount (w : Workspace) (id : PoolId) : Nat := w.routines.countP fun r => r.names == id

/-- The number of functions that hold a pool of constants. -/
def constantOwnerCount (w : Workspace) (id : PoolId) : Nat :=
  w.routines.countP fun r => r.constants == id

/-- For each function the first one that holds the same pool of names. -/
def namesOwners (w : Workspace) : List Nat :=
  w.routines.map fun r => w.routines.findIdx fun other => other.names == r.names

/-- For each function the first one that holds the same pool of constants. -/
def constantsOwners (w : Workspace) : List Nat :=
  w.routines.map fun r => w.routines.findIdx fun other => other.constants == r.constants

/-! ### Pools -/

/-- How the pool of names of one function is going to receive names. -/
def stageNames (w : Workspace) (index : Nat) (added : List String) : Staged String :=
  match w.routines[index]? with
  | none => .unchanged
  | some r => w.nameStore.stage r.names (w.nameOwnerCount r.names) added

/-- Makes a staged change to the pool of names of one function. -/
def commitNames (w : Workspace) (index : Nat) (staged : Staged String) : Workspace :=
  match w.routines[index]? with
  | none => w
  | some r =>
    let (nameStore, names) := w.nameStore.commit r.names staged
    { w with nameStore }.modify index fun r => { r with names }

/-- How the pool of constants of one function is going to receive constants. -/
def stageConstants (w : Workspace) (index : Nat) (added : List Constant) : Staged Constant :=
  match w.routines[index]? with
  | none => .unchanged
  | some r => w.constantStore.stage r.constants (w.constantOwnerCount r.constants) added

/-- Makes a staged change to the pool of constants of one function. -/
def commitConstants (w : Workspace) (index : Nat) (staged : Staged Constant) : Workspace :=
  match w.routines[index]? with
  | none => w
  | some r =>
    let (constantStore, constants) := w.constantStore.commit r.constants staged
    { w with constantStore }.modify index fun r => { r with constants }

/-- Adds names to the pool of one function. -/
def appendNames (w : Workspace) (index : Nat) (added : List String) : Workspace :=
  w.commitNames index (w.stageNames index added)

/-- Adds constants to the pool of one function. -/
def appendConstants (w : Workspace) (index : Nat) (added : List Constant) : Workspace :=
  w.commitConstants index (w.stageConstants index added)

/-- Merges names into the pool of one function and returns their indices. -/
def mergeNames (w : Workspace) (index : Nat) (requested : List String) : Workspace × List UInt32 :=
  let pool := (w.function? index).elim [] Function.names
  (w.appendNames index (Pool.appended pool requested), Pool.indices pool requested)

/-- Merges constants into the pool of one function and returns their indices. -/
def mergeConstants (w : Workspace) (index : Nat) (requested : List Constant) :
    Workspace × List UInt32 :=
  let pool := (w.function? index).elim [] Function.constants
  (w.appendConstants index (Pool.appended pool requested), Pool.indices pool requested)

/-- Gives one function a new pool of names. -/
def setNames (w : Workspace) (index : Nat) (pool : List String) : Workspace :=
  let (nameStore, names) := w.nameStore.add pool
  { w with nameStore }.modify index fun r => { r with names }

/-- Gives one function a new pool of constants. -/
def setConstants (w : Workspace) (index : Nat) (pool : List Constant) : Workspace :=
  let (constantStore, constants) := w.constantStore.add pool
  { w with constantStore }.modify index fun r => { r with constants }

/-- Lets one function hold the pools of another. -/
def share (w : Workspace) (index other : Nat) : Workspace :=
  match w.routines[other]? with
  | none => w
  | some o => w.modify index fun r => { r with constants := o.constants, names := o.names }

/-- Adds a copy of a function that shares its pools. -/
def clone (w : Workspace) (index : Nat) : Workspace :=
  { w with routines := w.routines ++ w.routines[index]?.toList }

/-! ### Breakpoints -/

/-- Makes a breakpoint active. -/
def activate (b : Breakpoint) : Program Workspace Unit := do
  let w ← get
  let registry ← w.injector.registry.activate b
  Program.change fun w => { w with injector := { w.injector with registry } }

/-- Makes a breakpoint inactive. -/
def deactivate (id : Nat) : Program Workspace Unit := do
  let w ← get
  let (_, registry) ← w.injector.registry.deactivate id
  Program.change fun w => { w with injector := { w.injector with registry } }

/-- Sets a breakpoint in one function. The changes come last: the registry, the pools, the line
table, the stack budget and the code. -/
def setBreakpoint (index line id : Nat) : Program Workspace Unit := do
  let w ← get
  match w.function? index with
  | none => pure ()
  | some f =>
    let p ← w.injector.planInsert f line id
    let edit ← p.draft.finish
    let lines ← f.lines.followed edit.shifts
    let depth := f.stackDepth + p.breakpoint.stackGrowth
    Program.require (depth < limit32) (.inconsistent .stackBudgetOverflow)
    let names := w.stageNames index (Pool.appended f.names w.injector.callNames)
    let constants := w.stageConstants index (Pool.appended f.constants [.int id])
    activate p.breakpoint
    Program.change fun w => w.commitNames index names
    Program.change fun w => w.commitConstants index constants
    Program.change fun w => w.setLines index lines
    Program.change fun w => w.setStackDepth index depth
    Program.change fun w => (w.setCode index edit.code).1

/-- Clears a breakpoint of one function. The changes come last: the registry, the line table, the
stack budget and the code. -/
def clearBreakpoint (index line id : Nat) : Program Workspace Unit := do
  let w ← get
  match w.function? index with
  | none => pure ()
  | some f =>
    let p ← w.injector.planRemove f line id
    let edit ← p.draft.finish
    let b := p.breakpoint
    Program.require (edit.removed.size = b.injectedSize)
      (.inconsistent (.sizeMismatch b.id b.injectedSize edit.removed.size))
    let lines ← f.lines.followed edit.shifts
    Program.require (b.stackGrowth ≤ f.stackDepth)
      (.underrun .stackBudget (b.stackGrowth - f.stackDepth))
    deactivate b.id
    Program.change fun w => w.setLines index lines
    Program.change fun w => w.setStackDepth index (f.stackDepth - b.stackGrowth)
    Program.change fun w => (w.setCode index edit.code).1

/-- Sets a breakpoint in one function. -/
def insert (w : Workspace) (index line id : Nat) : Workspace × Option Fault :=
  (setBreakpoint index line id).attempt w

/-- Clears a breakpoint of one function. -/
def remove (w : Workspace) (index line id : Nat) : Workspace × Option Fault :=
  (clearBreakpoint index line id).attempt w

end Workspace

end Tripwire
