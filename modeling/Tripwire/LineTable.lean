import Tripwire.Instruction
import Tripwire.Program
import Tripwire.Shift

/-!
# Line tables

A line table attributes the bytes of a function to source lines. It is a list of
runs; a run covers some bytes and moves a line counter, or carries no line.

* `LineTable.entries`: the runs that cover bytes, with their offsets and lines;
* `LineTable.offsetOfLine`, `LineTable.entryAt`, `LineTable.lineAt?`: the look-ups;
* `LineTable.adjustRun`: a change of size inside one run, step by step;
* `LineTable.adjust`: the table that such a change leaves;
* `LineTable.follow`: the adjustments that go with the shifts of an edit.
-/

namespace Tripwire

/-- A number of bytes and the step of the line counter. Without a step the bytes have no line and
the counter stays. -/
structure LineRun where
  size : Nat
  step : Option Int
  deriving DecidableEq, Repr

/-- The bytes from `start` up to `stop`, their line, and the index of the run behind them. -/
structure LineEntry where
  start : Nat
  stop : Nat
  line : Option Nat
  run : Nat
  deriving DecidableEq, Repr

/-- Whether an offset lies in the entry. -/
def LineEntry.contains (e : LineEntry) (offset : Nat) : Bool :=
  decide (e.start ≤ offset ∧ offset < e.stop)

/-- A value of the line counter as a line number, if it is one. -/
def lineOfCounter (counter : Int) : Option Nat :=
  if 0 ≤ counter ∧ counter < limit32 then some counter.toNat else none

/-- An integer reduced to 32 bits with sign. -/
def wrap32 (n : Int) : Int := n.bmod limit32

/-- Runs with the line from which the counter starts. -/
structure LineTable where
  firstLine : Nat
  runs : List LineRun
  deriving DecidableEq, Repr

namespace LineTable

/-! ### Construction and entries -/

/-- The runs for spans of bytes with given lines, the counter standing at `line`. A step is stored
in 32 bits, and the next one counts from the line as given. -/
def runsOfSpans (line : Nat) : List (Nat × Option Nat) → List LineRun
  | [] => []
  | (size, none) :: spans => ⟨size, none⟩ :: runsOfSpans line spans
  | (size, some next) :: spans =>
    ⟨size, some (wrap32 ((next : Int) - line))⟩ :: runsOfSpans next spans

/-- The table of spans of bytes with given lines. -/
def ofSpans (firstLine : Nat) (spans : List (Nat × Option Nat)) : LineTable :=
  ⟨firstLine, runsOfSpans firstLine spans⟩

/-- The entries of runs that begin at `offset` with the counter at `counter`; `index` numbers the
first run. Empty runs have no entry but move the counter. Offsets end at the 32-bit limit. -/
def entriesFrom (offset : Nat) (counter : Int) (index : Nat) : List LineRun → List LineEntry
  | [] => []
  | run :: runs =>
    let counter := counter + run.step.getD 0
    if run.size = 0 then entriesFrom offset counter (index + 1) runs
    else
      let stop := min (offset + run.size) (limit32 - 1)
      ⟨offset, stop, run.step.bind fun _ => lineOfCounter counter, index⟩ ::
        entriesFrom stop counter (index + 1) runs

/-- The runs that cover bytes. -/
def entries (t : LineTable) : List LineEntry := entriesFrom 0 t.firstLine 0 t.runs

/-- The number of bytes that the runs cover. -/
def size (t : LineTable) : Nat := t.runs.foldr (fun run sum => run.size + sum) 0

/-! ### Look-ups -/

/-- The start of the first entry whose line is `line` or a later one. -/
def offsetOfLine (t : LineTable) (line : Nat) : Except Fault Nat :=
  match t.entries.find? fun e => e.line.any fun current => line ≤ current with
  | some e => .ok e.start
  | none => .error (.lineNotFound line)

/-- The entry that covers an offset. -/
def entryAt (t : LineTable) (offset : Nat) : Except Fault LineEntry :=
  match t.entries.find? fun e => e.contains offset with
  | some e => .ok e
  | none => .error (.offsetNotFound offset)

/-- The line of an offset. -/
def lineAt? (t : LineTable) (offset : Nat) : Option Nat :=
  (t.entries.find? fun e => e.contains offset).bind LineEntry.line

/-! ### Changes of size -/

/-- Resizes the run with a given index. -/
def resize (t : LineTable) (index size : Nat) : LineTable :=
  { t with runs := t.runs.modify index fun run => { run with size } }

/-- Lets the run that covers `offset` grow or shrink. -/
def adjustRun (offset : Nat) (delta : Int) : Program LineTable Unit := do
  let t ← get
  let entry ← t.entryAt offset
  let size := ((t.runs[entry.run]?.map LineRun.size).getD 0 : Nat) + delta
  Program.require (0 ≤ size) (.underrun .lineTableRun size.natAbs)
  Program.require (size < limit32) (.inconsistent (.runTooLong offset))
  Program.change fun t => t.resize entry.run size.toNat

/-- Makes adjustments in order and stops at the first that fails. -/
def adjustRuns : List Shift → Program LineTable Unit
  | [] => pure ()
  | s :: shifts => do
    adjustRun s.lineOffset s.delta
    adjustRuns shifts

/-- The table in which the run that covers `offset` has grown or shrunk. -/
def adjust (t : LineTable) (offset : Nat) (delta : Int) : Except Fault LineTable :=
  (adjustRun offset delta).result t

/-- The table after adjustments in order, up to the first that fails. Those before it are kept. -/
def adjustAll (t : LineTable) (shifts : List Shift) : LineTable × Option Fault :=
  (adjustRuns shifts).attempt t

/-- Shifts by falling line offset, so that no adjustment moves a run that a later one looks up.
Shifts at one offset keep their order. -/
def fallingOrder (shifts : List Shift) : List Shift :=
  shifts.mergeSort fun a b => b.lineOffset ≤ a.lineOffset

/-- Makes the table follow the shifts of an edit. -/
def follow (t : LineTable) (shifts : List Shift) : LineTable × Option Fault :=
  t.adjustAll (fallingOrder shifts)

/-- The table that follows the shifts of an edit, if every adjustment can be made. -/
def followed (t : LineTable) (shifts : List Shift) : Except Fault LineTable :=
  match t.follow shifts with
  | (t, none) => .ok t
  | (_, some fault) => .error fault

@[simp] theorem size_nil (firstLine : Nat) : size ⟨firstLine, []⟩ = 0 := rfl

@[simp] theorem size_cons (firstLine : Nat) (run : LineRun) (runs : List LineRun) :
    size ⟨firstLine, run :: runs⟩ = run.size + size ⟨firstLine, runs⟩ := rfl

@[simp] theorem entriesFrom_nil (offset : Nat) (counter : Int) (index : Nat) :
    entriesFrom offset counter index [] = [] := rfl

@[simp] theorem firstLine_resize (t : LineTable) (index size : Nat) :
    (t.resize index size).firstLine = t.firstLine := rfl

end LineTable

end Tripwire
