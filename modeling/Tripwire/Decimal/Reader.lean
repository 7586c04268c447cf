import Tripwire.Decimal.Double
import Tripwire.Text.Numeral

/-!
# Reading decimals

The double that decimal text spells: an optional sign, digits with an optional
point among them, an optional exponent; or the words `inf`, `infinity` and `nan`
in any mixture of cases.

* `Double.ofDecimal`: the double nearest to digits with a power of ten;
* `Double.read?`: the double that text spells.
-/

namespace Tripwire.Double

/-- The magnitude bits of the double nearest to the number that digits spell, times `10 ^ power`.
Numbers far beyond the range of doubles are settled by their number of digits, without computing
them. -/
def ofDecimal (ds : List Nat) (power : Int) : Nat :=
  let ds := ds.dropWhile fun d => d == 0
  let magnitude := ds.length + power
  if ds.isEmpty || magnitude < -330 then 0
  else if 310 < magnitude then infinityBits
  else if 0 ≤ power then ofRatio (Text.number ds * Nat.pow 10 power.toNat) 1
  else ofRatio (Text.number ds) (Nat.pow 10 (-power).toNat)

/-- From here on further exponent digits are not read: no exponent of that size lies in the range of
doubles. -/
def exponentLimit : Nat := 0x10000

/-- The exponent that a non-empty run of digits spells. -/
def exponentValue? (cs : List Char) : Option Int :=
  if cs.isEmpty then none else (Text.digits? cs).map fun ds => (Text.spellUpTo exponentLimit ds : Int)

/-- The exponent in `e` notation, with an optional sign. -/
def readExponent? : List Char → Option Int
  | '+' :: cs => exponentValue? cs
  | '-' :: cs => (exponentValue? cs).map fun n => -n
  | cs => exponentValue? cs

/-- The magnitude bits of an unsigned decimal. There has to be a digit before or behind the point. -/
def readDecimal? (cs : List Char) : Option Nat :=
  let whole := cs.takeWhile Char.isDigit
  let rest := cs.dropWhile Char.isDigit
  let (places, rest) := match rest with
    | '.' :: rest => (rest.takeWhile Char.isDigit, rest.dropWhile Char.isDigit)
    | _ => ([], rest)
  if whole.isEmpty && places.isEmpty then none
  else
    let exponent : Option Int := match rest with
      | [] => some 0
      | 'e' :: cs | 'E' :: cs => readExponent? cs
      | _ => none
    exponent.bind fun power =>
      (Text.digits? (whole ++ places)).map fun ds => ofDecimal ds (power - places.length)

/-- The magnitude bits that one of the words stands for. -/
def readWord? (cs : List Char) : Option Nat :=
  match String.ofList (cs.map Char.toLower) with
  | "inf" | "infinity" => some infinityBits
  | "nan" => some nanBits
  | _ => none

/-- The magnitude bits that unsigned text spells. -/
def readMagnitude? (cs : List Char) : Option Nat :=
  (readDecimal? cs).or (readWord? cs)

/-- The double that text spells. -/
def read? : List Char → Option Double
  | '+' :: cs => (readMagnitude? cs).map (ofMagnitude false)
  | '-' :: cs => (readMagnitude? cs).map (ofMagnitude true)
  | cs => (readMagnitude? cs).map (ofMagnitude false)

end Tripwire.Double
