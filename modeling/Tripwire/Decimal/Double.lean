/-!
# Doubles

A double is held as the 64 bits of its binary form. Finite doubles are
`± m * 2 ^ q` with whole numbers `m < 2 ^ 53` and `q ≥ -1074`.

* `Double.significand`, `Double.exponent`: `m` and `q`;
* `Double.ofRatio`: the double nearest to a quotient.
-/

namespace Tripwire

/-- A double by its bits: a sign, eleven bits of exponent and 52 bits of fraction. -/
structure Double where
  bits : UInt64
  deriving DecidableEq, Repr

namespace Double

/-- The place of the least bit of a subnormal double. -/
def leastExponent : Int := -1074

/-- The fraction of a normal double lies below this bit, which is not stored. -/
def hiddenBit : Nat := 0x10000000000000

/-- The bit that is set under a minus sign. -/
def signBit : Nat := 0x8000000000000000

/-- Whether the sign is minus. -/
def isNegative (d : Double) : Bool := decide (signBit ≤ d.bits.toNat)

/-- The stored exponent. -/
def exponentField (d : Double) : Nat := d.bits.toNat / hiddenBit % 2048

/-- The stored fraction. -/
def fraction (d : Double) : Nat := d.bits.toNat % hiddenBit

/-- The stored exponent of infinities and of what is no number. -/
def topField : Nat := 2047

/-- Whether the bits stand for no number. -/
def isNaN (d : Double) : Bool := d.exponentField == topField && d.fraction != 0

/-- Whether the bits stand for an infinity. -/
def isInfinite (d : Double) : Bool := d.exponentField == topField && d.fraction == 0

/-- The whole number `m` of a finite double. -/
def significand (d : Double) : Nat :=
  if d.exponentField = 0 then d.fraction else hiddenBit + d.fraction

/-- The power `q` of a finite double. -/
def exponent (d : Double) : Int :=
  leastExponent + (d.exponentField - 1 : Nat)

/-- The bits of the positive infinity. -/
def infinityBits : Nat := topField * hiddenBit

/-- The bits of the quiet value that is no number. -/
def nanBits : Nat := infinityBits + hiddenBit / 2

/-- A double from the bits of its magnitude and its sign. -/
def ofMagnitude (negative : Bool) (magnitude : Nat) : Double :=
  ⟨UInt64.ofNat (if negative then signBit + magnitude else magnitude)⟩

/-- A quotient rounded to a whole number; a half goes to the even neighbour. -/
def roundQuotient (num den : Nat) : Nat :=
  let quotient := num / den
  let rest := num % den
  if 2 * rest < den then quotient
  else if den < 2 * rest then quotient + 1
  else quotient + quotient % 2

/-- A quotient divided by a power of two, as a quotient. -/
def scaleQuotient (num den : Nat) (power : Int) : Nat × Nat :=
  if 0 ≤ power then (num, den <<< power.toNat) else (num <<< (-power).toNat, den)

/-- The power of two just below a positive quotient, or at it. -/
def floorLog2 (num den : Nat) : Int :=
  let guess := (num.log2 : Int) - den.log2
  let (n, d) := scaleQuotient num den guess
  if n < d then guess - 1 else guess

/-- The magnitude bits of the double nearest to a quotient; of two equally near ones that with the
even significand. Quotients beyond the range give infinity. -/
def ofRatio (num den : Nat) : Nat :=
  if num = 0 then 0
  else
    let exponent := max leastExponent (floorLog2 num den - 52)
    let (n, d) := scaleQuotient num den exponent
    min infinityBits ((exponent - leastExponent).toNat * hiddenBit + roundQuotient n d)

end Double

end Tripwire
