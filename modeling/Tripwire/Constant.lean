import Tripwire.Decimal.Shortest
import Tripwire.Text.Quoted

/-!
# Constants

The values that code loads by index. Two constants are the same entry of a pool
when they are equal; doubles are compared by their bits, so `0.0` and `-0.0` are
two entries.
-/

namespace Tripwire

/-- A constant of a function. -/
inductive Constant
  | none
  | bool (value : Bool)
  | int (value : Int)
  | float (value : Double)
  | str (value : String)
  deriving DecidableEq, Repr

/-- The constant as listings show it. -/
def Constant.text : Constant → String
  | .none => "None"
  | .bool value => if value then "true" else "false"
  | .int value => toString value
  | .float value => value.text
  | .str value => Text.quote value

end Tripwire
