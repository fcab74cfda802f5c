import ImpFront.Number.Double

/-! Decimal texts of doubles. The digits are the fewest that read back as the same double; of
several such decimals the nearest is taken, and of two equally near ones the larger. `positional`
lays them out without an exponent, `scientific` with one. -/

namespace ImpFront

namespace Double

/-- The exact value as a decimal. -/
def exactDecimal (x : Double) : Decimal := ⟨x.units * Nat.pow 5 1074, -1074⟩

/-- How many digits stand before the decimal point; not positive for values below a tenth. The value
is not zero. -/
def pointPlace (x : Double) : Int :=
  if unitsInOne ≤ x.units then (Nat.toDigits 10 (x.units / unitsInOne)).length
  else 1 - (Nat.toDigits 10 ((unitsInOne - 1) / x.units)).length

/-- The nearest multiple of `10 ^ e` that reads back as `x`, among the two multiples around `x`. -/
def decimalAt (x : Double) (e : Int) : Option Decimal :=
  let num := x.units * Nat.pow 10 (-e).toNat
  let den := unitsInOne * Nat.pow 10 e.toNat
  let down : Decimal := ⟨num / den, e⟩
  let up : Decimal := ⟨num / den + 1, e⟩
  if down.toDouble = x then
    if up.toDouble = x ∧ den ≤ 2 * (num % den) then some up else some down
  else if up.toDouble = x then some up
  else none

/-- Seventeen digits always suffice to read back. -/
def maxDigits : Nat := 17

/-- The shortest decimal of a positive finite double. -/
def shortest (x : Double) : Decimal :=
  ((List.range maxDigits).findSome? fun n : Nat =>
    x.decimalAt (x.pointPlace - n - 1)).getD x.exactDecimal

end Double

/-- The decimal digits `0.d₁d₂… * 10 ^ point` of a number. -/
structure DigitText where
  digits : List Char
  point : Int
  deriving DecidableEq, Repr

def dropTrailingZeros (cs : List Char) : List Char := (cs.reverse.dropWhile (· = '0')).reverse

/-- The digits of a decimal without trailing zeros. -/
def Decimal.digitText (d : Decimal) : DigitText :=
  let cs := Nat.toDigits 10 d.digits
  ⟨dropTrailingZeros cs, cs.length + d.exponent⟩

namespace DigitText

def zeros (n : Nat) : List Char := List.replicate n '0'

/-- Digits with a decimal point where one is needed and no exponent. -/
def positional (t : DigitText) : List Char :=
  if t.point ≤ 0 then '0' :: '.' :: (zeros (-t.point).toNat ++ t.digits)
  else
    let whole := t.point.toNat
    if t.digits.length ≤ whole then t.digits ++ zeros (whole - t.digits.length)
    else t.digits.take whole ++ '.' :: t.digits.drop whole

/-- One digit, the others after a point, and the power of ten. -/
def scientific (t : DigitText) : List Char :=
  let fraction := t.digits.drop 1
  t.digits.take 1 ++ (if fraction.isEmpty then [] else '.' :: fraction)
    ++ 'e' :: (toString (t.point - 1)).toList

end DigitText

/-- Appends `.0` to a text without a decimal point. -/
def withPoint (cs : List Char) : List Char := if '.' ∈ cs then cs else cs ++ ['.', '0']

namespace Double

/-- The digits of a finite double, zero included. -/
def digitText (x : Double) : DigitText := if x.isZero then ⟨['0'], 1⟩ else x.abs.shortest.digitText

def signed (x : Double) (cs : List Char) : String :=
  String.ofList (if x.isNegative then '-' :: cs else cs)

/-- Text of an operand or a token: positional from `0.0001` up to `10 ^ 16`, with at least one digit
after the point, and with an exponent elsewhere. -/
def text (x : Double) : String :=
  if x.isNaN then "NaN"
  else if x.isInfinite then x.signed "inf".toList
  else
    let t := x.digitText
    if -3 ≤ t.point ∧ t.point ≤ 16 then x.signed (withPoint t.positional) else x.signed t.scientific

/-- Text of a literal: digits and one point, never an exponent. An infinity is written as the power
of ten that no finite double reaches. -/
def literal (x : Double) : String :=
  if x.isNaN then "NaN.0"
  else if x.isInfinite then String.ofList ('1' :: (DigitText.zeros 309 ++ ['.', '0']))
  else x.signed (withPoint x.digitText.positional)

end Double

end ImpFront
