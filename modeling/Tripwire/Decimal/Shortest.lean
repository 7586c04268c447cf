import Tripwire.Decimal.Double

/-!
# Shortest decimals

The decimal text of a double has the fewest digits that read back as the same
double, and of these the nearest to it.

* `Double.shortest`: the digits and the place of the decimal point;
* `Double.text`: the text, positional for magnitudes from `1e-4` up to below
  `1e16` and with an exponent outside of them.
-/

namespace Tripwire.Double

/-- The numbers that read back as a double, in quarters of its last place: between `low` and `high`,
with the ends if `closed`. -/
structure Interval where
  low : Nat
  value : Nat
  high : Nat
  closed : Bool
  deriving DecidableEq, Repr

/-- The interval of a finite double. Below a power of two the doubles stand twice as close. -/
def interval (d : Double) : Interval :=
  let m := d.significand
  ⟨if m = hiddenBit then 4 * m - 1 else 4 * m - 2, 4 * m, 4 * m + 2, m % 2 == 0⟩

/-- A decimal: the digits, without zeros at the end, follow the point, and the number is multiplied
by ten to the power `point`. -/
structure Decimal where
  digits : List Nat
  point : Int
  deriving DecidableEq, Repr

/-- The digits of a positive number. -/
def digitsOf (n : Nat) : List Nat :=
  (Nat.toDigits 10 n).map fun c => c.toNat - '0'.toNat

/-- The decimal `n * 10 ^ place`. -/
def Decimal.ofScaled (n : Nat) (place : Int) : Decimal :=
  let digits := digitsOf n
  let trimmed := (digits.reverse.dropWhile fun digit => digit == 0).reverse
  ⟨trimmed, digits.length + place⟩

/-- Whether `scaled * unit / quarter`, a point of a decimal grid, lies in the interval. -/
def Interval.holds (i : Interval) (scaled unit quarter : Nat) : Bool :=
  let point := scaled * unit
  if i.closed then decide (i.low * quarter ≤ point ∧ point ≤ i.high * quarter)
  else decide (i.low * quarter < point ∧ point < i.high * quarter)

/-- The point of a decimal grid that lies in the interval and is nearest to its value, as a multiple
of the unit. Of two equally near points it is the upper one. -/
def Interval.nearest? (i : Interval) (unit quarter : Nat) : Option Nat :=
  let value := i.value * quarter
  let below := value / unit
  let rest := value % unit
  let holdsBelow := i.holds below unit quarter
  let holdsAbove := i.holds (below + 1) unit quarter
  if holdsBelow && (!holdsAbove || decide (2 * rest < unit)) then some below
  else if holdsAbove then some (below + 1)
  else none

/-- The power of ten in whole numbers, as numerator and denominator. -/
def powerOfTen (power : Int) : Nat × Nat :=
  if 0 ≤ power then (Nat.pow 10 power.toNat, 1) else (1, Nat.pow 10 (-power).toNat)

/-- The number of digits in front of the decimal point of a quotient; for quotients below one the
negative number of zeros behind it. Starts from a guess and moves down while it is too large. -/
def pointOf (num den : Nat) : Nat → Int → Int
  | 0, guess => guess
  | steps + 1, guess =>
    let (n, d) := powerOfTen (guess - 1)
    if num * d < n * den then pointOf num den steps (guess - 1) else guess

/-- The shortest decimal of a positive finite double. Grids are tried from one digit on, and on that
of seventeen digits there is always a hit. -/
def shortest (d : Double) : Decimal :=
  let i := d.interval
  -- a quarter of the last place is `a / b`
  let (a, b) := scaleQuotient 1 1 (2 - d.exponent)
  let guess := (floorLog2 (i.value * a) b + 1) * 30103 / 100000 + 2
  let point := pointOf (i.value * a) b 4 guess
  let hit := (List.range 17).findSome? fun (count : Nat) =>
    let place := point - (count + 1)
    let (n, m) := powerOfTen place
    (i.nearest? (n * b) (a * m)).map fun scaled => Decimal.ofScaled scaled place
  hit.getD ⟨[], 0⟩

/-! ### Text -/

/-- The characters of some digits. -/
def digitText (digits : List Nat) : List Char := digits.map Nat.digitChar

/-- Positional text, with at least one digit on either side of the point. -/
def Decimal.positional (x : Decimal) : List Char :=
  let text := digitText x.digits
  if x.point ≤ 0 then ['0', '.'] ++ List.replicate (-x.point).toNat '0' ++ text
  else
    let whole := x.point.toNat
    if text.length ≤ whole then text ++ List.replicate (whole - text.length) '0' ++ ['.', '0']
    else text.take whole ++ '.' :: text.drop whole

/-- Text with one digit in front of the point and an exponent. A point without digits behind it is
left out. -/
def Decimal.scientific (x : Decimal) : List Char :=
  let mantissa := match digitText x.digits with
    | first :: second :: rest => first :: '.' :: second :: rest
    | text => text
  mantissa ++ 'e' :: (toString (x.point - 1)).toList

/-- The places of the decimal point for which the text is positional: magnitudes from `1e-4` up to
below `1e16`. -/
def positionalPoint (point : Int) : Bool := decide (-3 ≤ point ∧ point ≤ 16)

/-- The text of a double's magnitude. -/
def magnitudeText (d : Double) : List Char :=
  if d.isInfinite then ['i', 'n', 'f']
  else if d.significand = 0 then ['0', '.', '0']
  else
    let x := d.shortest
    if positionalPoint x.point then x.positional else x.scientific

/-- The text of a double. Only what is no number shows no sign. -/
def text (d : Double) : String :=
  String.ofList <|
    if d.isNaN then ['N', 'a', 'N']
    else if d.isNegative then '-' :: d.magnitudeText
    else d.magnitudeText

end Tripwire.Double
