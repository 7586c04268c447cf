import Tripwire.Constant
import Tripwire.LineTable

/-!
# Functions

A function is code with the pools that it refers to, its line table and the stack
budget that an activation is given.
-/

namespace Tripwire

/-- A function. -/
structure Function where
  name : String
  code : List UInt8
  constants : List Constant
  names : List String
  lines : LineTable
  stackDepth : Nat
  deriving DecidableEq, Repr

/-- The offset at which a breakpoint for a line belongs. Lines count from one. -/
def Function.offsetOfLine (f : Function) (line : Nat) : Except Fault Nat :=
  if line = 0 then .error (.lineNotFound line) else f.lines.offsetOfLine line

end Tripwire
