import Tripwire.Block.Binary
import Tripwire.Function

/-!
# Listings

A listing shows a function for a reader: its pools, then one row for every
instruction, with a marker in front of the code of each line.

* `describe`: an instruction in words;
* `Row`: what is listed of an instruction;
* `rowsOf`: the rows with their line markers;
* `listing`: the whole text.
-/

namespace Tripwire

/-- A number with at least four digits. -/
def fourDigits (n : Nat) : String :=
  let digits := toString n
  String.ofList (List.replicate (4 - digits.length) '0') ++ digits

/-- Text filled up with spaces. -/
def padRight (width : Nat) (text : String) : String :=
  text ++ String.ofList (List.replicate (width - text.length) ' ')

/-- Bytes in hexadecimal digits. -/
def hexText (bytes : List UInt8) : String := String.join (bytes.map hexByte)

/-- A pool with its entries numbered. -/
def poolListing {α : Type} (title : String) (text : α → String) (pool : List α) : String :=
  let entries := pool.zipIdx.map fun (entry, index) => s!"  [{fourDigits index}] {text entry}\n"
  s!"{title} ({pool.length}):\n" ++ String.join entries

/-- An instruction in words, with what its operand refers to. -/
def describe (f : Function) (i : Instruction) (offset : Nat) : String :=
  let arg := i.operand.toNat
  let counted := s!"{i.opcode.mnemonic} {arg}"
  match i.opcode.operandKind with
  | .none => i.opcode.mnemonic
  | .const => counted ++ " ; " ++ (f.constants[arg]?.map Constant.text).getD "<missing const>"
  | .name => counted ++ " ; " ++ f.names[arg]?.getD "<missing name>"
  | .slot | .count => counted
  | .compare =>
    match comparisonName? arg with
    | some name => s!"{counted} ; {name}"
    | none => counted
  | .jump =>
    match i.target? offset with
    | some target => s!"{counted} ; to {target}"
    | none => counted

/-- A line marker, or an instruction with its offset and its bytes. -/
inductive Row
  | marker (line : Option Nat)
  | code (offset : Nat) (bytes : List UInt8) (text : String)
  deriving DecidableEq, Repr

/-- The row as text. -/
def Row.text : Row → String
  | .marker (some line) => s!"      ; line {line}\n"
  | .marker none => "      ; line -\n"
  | .code offset bytes text => s!"{fourDigits offset}\t{padRight 14 (hexText bytes)}\t{text}\n"

/-- The rows of the instructions of a block, which stands at `offset` and is written as `bytes`. In
front of an instruction stand the markers of all line entries that have begun by then. -/
def rowsFrom (f : Function) (offset : Nat) (bytes : List UInt8) (lines : List LineEntry) :
    Block → List Row
  | [] => []
  | i :: b =>
    let begun := lines.takeWhile fun e => e.start ≤ offset
    begun.map (fun e => Row.marker e.line) ++
      .code offset (bytes.take i.size) (describe f i offset) ::
        rowsFrom f (offset + i.size) (bytes.drop i.size)
          (lines.dropWhile fun e => e.start ≤ offset) b

/-- The rows of a function. -/
def rowsOf (f : Function) (b : Block) : List Row := rowsFrom f 0 f.code f.lines.entries b

/-- The listing of a function whose code is undamaged. -/
def listing (f : Function) : Except DecodeFault String := do
  let b ← Block.decode f.code
  pure <|
    s!"function {f.name} (stack {f.stackDepth}):\n" ++
    poolListing "constants" Constant.text f.constants ++
    poolListing "names" (fun name => name) f.names ++
    s!"code ({f.code.length} bytes):\n" ++
    String.join ((rowsOf f b).map Row.text)

end Tripwire
