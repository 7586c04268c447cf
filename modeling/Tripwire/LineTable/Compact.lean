import Tripwire.LineTable
import Tripwire.Block.Binary

/-!
# Compact line tables

A line table is stored as pairs of bytes: a number of bytes of code and a signed
step of the line counter. The step `-128` stands for bytes without a line. Long
runs and large steps take several pairs.

* `LineTable.toBytes`: the stored form;
* `LineTable.ofBytes`: the table of a stored form, one run for each pair.
-/

namespace Tripwire.LineTable

/-- The step that stands for bytes without a line, as a byte. -/
def noLine : UInt8 := 0x80

/-- The most bytes of code that a pair is written with. -/
def longestRun : Nat := 254

/-- The largest step of a pair, in either direction. -/
def largestStep : Nat := 127

/-- A signed byte. -/
def signedByte (n : Int) : UInt8 := UInt8.ofNat (n.emod 256).toNat

/-- The value of a signed byte. -/
def signedValue (b : UInt8) : Int :=
  if b.toNat < 128 then b.toNat else (b.toNat : Int) - 256

/-- The pairs that go before a run to bring its step into the range of a signed byte: empty pairs
with the largest step. -/
def stepPairs (step : Int) : List (UInt8 × UInt8) :=
  if step < 0 then
    List.replicate ((step.natAbs - 1) / largestStep) (0, signedByte (-largestStep))
  else List.replicate ((step.natAbs - 1) / largestStep) (0, signedByte largestStep)

/-- What remains of a step after its pairs. -/
def lastStep (step : Int) : Int :=
  if step < 0 then step + ((step.natAbs - 1) / largestStep * largestStep : Nat)
  else step - ((step.natAbs - 1) / largestStep * largestStep : Nat)

/-- The pairs for `size` further bytes of a run. -/
def continuationPairs (marker : UInt8) (size : Nat) : List (UInt8 × UInt8) :=
  let full := List.replicate (size / longestRun) (UInt8.ofNat longestRun, marker)
  if size % longestRun = 0 then full else full ++ [(UInt8.ofNat (size % longestRun), marker)]

/-- The pairs of a run. The first pair of its bytes carries the step and is written for an empty run
too. -/
def runPairs (run : LineRun) : List (UInt8 × UInt8) :=
  let first := min run.size longestRun
  match run.step with
  | none => (UInt8.ofNat first, noLine) :: continuationPairs noLine (run.size - first)
  | some step =>
    stepPairs step ++
      (UInt8.ofNat first, signedByte (lastStep step)) :: continuationPairs 0 (run.size - first)

/-- The stored form. -/
def toBytes (t : LineTable) : List UInt8 := bytesOf (t.runs.flatMap runPairs)

/-- The run of a pair. -/
def runOfPair (pair : UInt8 × UInt8) : LineRun :=
  ⟨pair.1.toNat, if pair.2 = noLine then none else some (signedValue pair.2)⟩

/-- The table of a stored form. -/
def ofBytes (firstLine : Nat) (bytes : List UInt8) : Except DecodeFault LineTable :=
  if bytes.length % wordSize = 0 then .ok ⟨firstLine, (wordsOf bytes).map runOfPair⟩
  else .error (.oddLength bytes.length)

end Tripwire.LineTable
