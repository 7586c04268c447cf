import Tripwire.Breakpoint
import Tripwire.Call
import Tripwire.Function
import Tripwire.Pool
import Tripwire.Splice

/-!
# Setting and clearing breakpoints

The injector keeps the registry of active breakpoints. Setting a breakpoint
splices its call in front of the first code of a line; clearing it takes the
call out again. Both are prepared in full before anything is changed, so a
refused request changes nothing.

* `Plan`: a request up to the draft of the edit;
* `Change`: everything a granted request changes;
* `Injector.insert`, `Injector.remove`: the requests on a function;
* `Injector.insertNotes`, `Injector.removeNotes`: the notes that a request
  leaves.
-/

namespace Tripwire

/-- The call that breakpoints make and the breakpoints that are active. -/
structure Injector where
  target : CallTarget
  registry : Registry
  deriving DecidableEq, Repr

/-- What a request noted on its way. -/
inductive Note
  /-- Relocation changed the width of the instruction at an offset. -/
  | resized (opcode : Opcode) (offset : Nat) (delta : Int)
  /-- A pool of `length` entries received `count` more. -/
  | reserved (count length : Nat)
  | inserted (id : Nat) (name : String) (line offset size resizes : Nat)
  | removed (id : Nat) (name : String) (line offset size : Nat)
  deriving DecidableEq, Repr

/-- The message for a reader. -/
def Note.message : Note → String
  | .resized opcode offset delta => s!"{opcode.mnemonic} at offset {offset} resized by {delta} bytes"
  | .reserved count length => s!"reserved {count} pool slots in place (len={length})"
  | .inserted id name line offset size resizes =>
    s!"inserted breakpoint {id} into {name} at line {line} (offset {offset}, {size} bytes, {resizes} resizes)"
  | .removed id name line offset size =>
    s!"removed breakpoint {id} from {name} at line {line} (offset {offset}, {size} bytes)"

/-- A request up to the draft of its edit. `offset` is where the call stands or goes. -/
structure Plan where
  breakpoint : Breakpoint
  offset : Nat
  draft : Draft
  deriving DecidableEq, Repr

/-- Everything a granted request changes. -/
structure Change where
  edit : Edit
  lines : LineTable
  stackDepth : Nat
  newNames : List String
  newConstants : List Constant
  registry : Registry
  deriving DecidableEq, Repr

/-- The function after a change. -/
def Function.change (f : Function) (c : Change) : Function :=
  { f with
    code := c.edit.code
    constants := f.constants ++ c.newConstants
    names := f.names ++ c.newNames
    lines := c.lines
    stackDepth := c.stackDepth }

namespace Injector

/-- An injector without active breakpoints. -/
def start (target : CallTarget) : Injector := ⟨target, .empty⟩

/-- The names that a call needs. -/
def callNames (inj : Injector) : List String := [inj.target.module, inj.target.callback]

/-- The index of an entry of a pool as an operand. -/
def operandOf {α : Type} [DecidableEq α] (pool : List α) (entry : α) : UInt32 :=
  UInt32.ofNat (pool.idxOf entry)

/-- The call for a breakpoint number in a function, once its names and its constant are merged
in. -/
def callFor (inj : Injector) (f : Function) (id : Nat) : Block :=
  let names := Pool.merge f.names inj.callNames
  let constants := Pool.merge f.constants [.int id]
  callBlock (operandOf names inj.target.module) (operandOf names inj.target.callback)
    (operandOf constants (.int id))

/-! ### Setting a breakpoint -/

/-- Prepares the splice of a breakpoint's call. -/
def planInsert (inj : Injector) (f : Function) (line id : Nat) : Except Fault Plan := do
  inj.registry.ensureInactive id
  let offset ← f.offsetOfLine line
  let body ← Block.ofCode f.code
  let call := inj.callFor f id
  let draft ← body.draftInsert call offset
  pure ⟨⟨id, line, call.size, call.stackGrowth⟩, offset, draft⟩

/-- Carries a planned insertion out, up to the change of the function. -/
def changeInsert (inj : Injector) (f : Function) (p : Plan) : Except Fault Change := do
  let edit ← p.draft.finish
  let lines ← f.lines.followed edit.shifts
  let depth := f.stackDepth + p.breakpoint.stackGrowth
  if depth < limit32 then
    let registry ← inj.registry.activate p.breakpoint
    pure ⟨edit, lines, depth, Pool.appended f.names inj.callNames,
      Pool.appended f.constants [.int p.breakpoint.id], registry⟩
  else throw (.inconsistent .stackBudgetOverflow)

/-- The change that sets a breakpoint. -/
def insertion (inj : Injector) (f : Function) (line id : Nat) : Except Fault Change := do
  inj.changeInsert f (← inj.planInsert f line id)

/-- Sets a breakpoint. -/
def insert (inj : Injector) (f : Function) (line id : Nat) : Except Fault (Injector × Function) := do
  let c ← inj.insertion f line id
  pure ({ inj with registry := c.registry }, f.change c)

/-! ### Clearing a breakpoint -/

/-- The offset of the call of a breakpoint number among the calls at `offset`. -/
def locateCall (inj : Injector) (f : Function) (body : Block) (offset line id : Nat) :
    Except Fault Nat := do
  let missing : Fault := .inconsistent (.missingCall id line)
  match Pool.find? f.names inj.target.module, Pool.find? f.names inj.target.callback with
  | some module, some callback =>
    let index ← body.indexAt offset
    let found ← findCall module callback f.constants (.int id) offset (body.drop index)
    match found with
    | some start => pure start
    | none => throw missing
  | _, _ => throw missing

/-- Prepares the removal of a breakpoint's call. -/
def planRemove (inj : Injector) (f : Function) (line id : Nat) : Except Fault Plan := do
  let breakpoint ← inj.registry.ensureActive id
  let offset ← f.offsetOfLine line
  let body ← Block.ofCode f.code
  let start ← inj.locateCall f body offset line id
  let draft ← body.draftRemove start callLength
  pure ⟨breakpoint, start, draft⟩

/-- Carries a planned removal out, up to the change of the function. -/
def changeRemove (inj : Injector) (f : Function) (p : Plan) : Except Fault Change := do
  let edit ← p.draft.finish
  let b := p.breakpoint
  if edit.removed.size = b.injectedSize then
    let lines ← f.lines.followed edit.shifts
    if b.stackGrowth ≤ f.stackDepth then
      let (_, registry) ← inj.registry.deactivate b.id
      pure ⟨edit, lines, f.stackDepth - b.stackGrowth, [], [], registry⟩
    else throw (.underrun .stackBudget (b.stackGrowth - f.stackDepth))
  else throw (.inconsistent (.sizeMismatch b.id b.injectedSize edit.removed.size))

/-- The change that clears a breakpoint. -/
def removal (inj : Injector) (f : Function) (line id : Nat) : Except Fault Change := do
  inj.changeRemove f (← inj.planRemove f line id)

/-- Clears a breakpoint. -/
def remove (inj : Injector) (f : Function) (line id : Nat) : Except Fault (Injector × Function) := do
  let c ← inj.removal f line id
  pure ({ inj with registry := c.registry }, f.change c)

/-! ### Notes -/

/-- The notes of the relocation in a draft. -/
def draftNotes (d : Draft) : List Note :=
  d.resizes.map fun (opcode, change) => .resized opcode change.offset change.delta

/-- The note of a pool that receives entries, if there are any. -/
def poolNotes {α : Type} (pool added : List α) : List Note :=
  if added.isEmpty then [] else [.reserved added.length pool.length]

/-- The notes of a request to set a breakpoint in a function that shares no pool. A refused request
leaves those up to its refusal. -/
def insertNotes (inj : Injector) (f : Function) (line id : Nat) : List Note :=
  match inj.planInsert f line id with
  | .error _ => []
  | .ok p =>
    draftNotes p.draft ++
      match inj.changeInsert f p with
      | .error _ => []
      | .ok c =>
        poolNotes f.names c.newNames ++ poolNotes f.constants c.newConstants ++
          [.inserted id f.name line p.offset p.breakpoint.injectedSize (c.edit.shifts.length - 1)]

/-- The notes of a request to clear a breakpoint. -/
def removeNotes (inj : Injector) (f : Function) (line id : Nat) : List Note :=
  match inj.planRemove f line id with
  | .error _ => []
  | .ok p =>
    draftNotes p.draft ++
      match inj.changeRemove f p with
      | .error _ => []
      | .ok c => [.removed id f.name line p.offset c.edit.removed.size]

end Injector

end Tripwire
