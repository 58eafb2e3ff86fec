/-!
Finite binary64 numbers as signed positions among all magnitudes, so that order and equality are
those of integers. Rounding is to nearest, ties to the even neighbour; what rounds past the largest
finite number is refused. Infinities and NaN are not represented.
-/
namespace RecordGraph

/-- A finite binary64 number. `magnitude` counts the nonnegative doubles below it in absolute value. -/
structure Double where
  negative : Bool
  magnitude : Nat
  finite : magnitude < 0x7FF0000000000000
deriving DecidableEq

namespace Double

def zero : Double := ⟨false, 0, by decide⟩

def negZero : Double := ⟨true, 0, by decide⟩

instance : Inhabited Double := ⟨zero⟩

def isZero (d : Double) : Bool := d.magnitude == 0

/-- The position on the number line; both zeros stand at `0`. -/
def key (d : Double) : Int := if d.negative then -(d.magnitude : Int) else d.magnitude

/-- Numeric equality: the two zeros are the same number. -/
def same (a b : Double) : Bool := a.key == b.key

/-- Numeric order. -/
def order (a b : Double) : Ordering := compare a.key b.key

/-- The absolute value in units of `2 ^ -1074`. -/
def units (d : Double) : Nat :=
  let exponent := d.magnitude >>> 52
  let fraction := d.magnitude % 0x10000000000000
  if exponent = 0 then fraction else (0x10000000000000 + fraction) <<< (exponent - 1)

/-- How many units of `2 ^ -1074` make one. -/
def unitsPerOne : Nat := 1 <<< 1074

/-- The quotient rounded to the nearest integer, a tie to the even one. -/
def roundQuotient (num den : Nat) : Nat :=
  let q := num / den
  let r := num % den
  if 2 * r < den then q
  else if den < 2 * r then q + 1
  else if q % 2 = 0 then q else q + 1

/-- The largest `k` with `2 ^ k ≤ num / den`, at least `0`. -/
def floorLog (num den : Nat) : Nat :=
  let k := Nat.log2 num - Nat.log2 den
  if num < den <<< k then k - 1 else k

/-- The magnitude nearest to `num / den` units of `2 ^ -1074`. -/
def magnitudeOfUnits (num den : Nat) : Nat :=
  let shift := floorLog num den - 52
  (shift <<< 52) + roundQuotient num (den <<< shift)

/-- The double nearest to `num / den` with the given sign, none beyond the finite range. -/
def ofRatio (negative : Bool) (num den : Nat) : Option Double :=
  let magnitude := magnitudeOfUnits (num * unitsPerOne) den
  if h : magnitude < 0x7FF0000000000000 then some ⟨negative, magnitude, h⟩ else none

/-- The double nearest to an integer. -/
def ofInt? (i : Int) : Option Double := ofRatio (i < 0) i.natAbs 1

/-- The double nearest to `coefficient * 10 ^ exponent`. -/
def ofDecimal (negative : Bool) (coefficient : Nat) (exponent : Int) : Option Double :=
  if exponent < 0 then ofRatio negative coefficient (Nat.pow 10 exponent.natAbs)
  else ofRatio negative (coefficient * Nat.pow 10 exponent.natAbs) 1

/-- The nearest double to the product of two absolute values, with the sign of the first. -/
def scaleUp (d factor : Double) : Option Double :=
  ofRatio d.negative (d.units * factor.units) (unitsPerOne * unitsPerOne)

/-- The nearest double to the quotient of two absolute values, with the sign of the first. -/
def scaleDown (d divisor : Double) : Option Double :=
  ofRatio d.negative d.units divisor.units

end Double
end RecordGraph
