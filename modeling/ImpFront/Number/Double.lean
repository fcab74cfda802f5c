import ImpFront.Number.Digits

/-! Doubles by their 64 bits. A finite double is `significand * 2 ^ shift` units of `2 ^ -1074`, the
smallest positive double. `ofRatio` gives the double nearest to a quotient of natural numbers; of
two equally near ones it takes the one with the even significand, and what is too large becomes
infinity. -/

namespace ImpFront

structure Double where
  bits : UInt64
  deriving DecidableEq, Repr

/-- The quotient rounded to the nearest integer, a half to the even one. -/
def roundDiv (a b : Nat) : Nat :=
  let q := a / b
  let r := a % b
  if 2 * r < b then q
  else if b < 2 * r then q + 1
  else if q % 2 = 0 then q
  else q + 1

namespace Double

/-- The fraction takes the low 52 bits. -/
def fractionSize : Nat := Nat.pow 2 52

/-- The sign is the high bit. -/
def signBit : Nat := Nat.pow 2 63

/-- The bits of positive infinity; larger ones below the sign bit are those of NaN. -/
def infinityBits : Nat := 0x7ff * fractionSize

def ofMagnitude (n : Nat) : Double := ⟨n.toUInt64⟩

def zero : Double := ⟨0⟩

/-- Number of units that make up one. -/
def unitsInOne : Nat := Nat.pow 2 1074

def isNegative (x : Double) : Bool := signBit ≤ x.bits.toNat

/-- The bits without the sign. -/
def magnitude (x : Double) : Nat := x.bits.toNat % signBit

def isNaN (x : Double) : Bool := infinityBits < x.magnitude

def isInfinite (x : Double) : Bool := x.magnitude = infinityBits

def isZero (x : Double) : Bool := x.magnitude = 0

def abs (x : Double) : Double := ofMagnitude x.magnitude

def exponentField (x : Double) : Nat := x.magnitude / fractionSize

def fractionField (x : Double) : Nat := x.magnitude % fractionSize

def significand (x : Double) : Nat :=
  if x.exponentField = 0 then x.fractionField else fractionSize + x.fractionField

def shift (x : Double) : Nat := x.exponentField - 1

/-- The absolute value of a finite double, counted in units. -/
def units (x : Double) : Nat := x.significand * Nat.pow 2 x.shift

/-- Equality of values: a NaN equals nothing, and the two zeros are equal. -/
def same (x y : Double) : Bool :=
  !x.isNaN && !y.isNaN && (x = y || x.isZero && y.isZero)

/-- The double nearest to `num / den`. -/
def ofRatio (num den : Nat) : Double :=
  let shift := Nat.log2 (num * unitsInOne / den) - 52
  let significand := roundDiv (num * unitsInOne) (den * Nat.pow 2 shift)
  ofMagnitude (min (shift * fractionSize + significand) infinityBits)

end Double

/-- The number `digits * 10 ^ exponent`. -/
structure Decimal where
  digits : Nat
  exponent : Int
  deriving DecidableEq, Repr

def Decimal.toDouble (d : Decimal) : Double :=
  Double.ofRatio (d.digits * Nat.pow 10 d.exponent.toNat) (Nat.pow 10 (-d.exponent).toNat)

/-- The double that a numeral spells, up to its second point. The numeral starts with a digit. -/
def Double.ofNumeral (cs : List Char) : Double :=
  let whole := cs.takeWhile (· ≠ '.')
  let fraction := ((cs.dropWhile (· ≠ '.')).drop 1).takeWhile (· ≠ '.')
  Decimal.toDouble ⟨Digits.value (whole ++ fraction), -fraction.length⟩

end ImpFront
