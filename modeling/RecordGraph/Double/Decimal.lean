import RecordGraph.Double.Basic

/-!
The decimal text of a double: the fewest digits that read back, the nearest of those, a tie to the
even digit. Positional notation is used for exponents from `-5` to `15`, always with a fraction.
-/
namespace RecordGraph.Double

/-- A decimal `coefficient * 10 ^ exponent`. -/
structure Decimal where
  coefficient : Nat
  exponent : Int
deriving DecidableEq

namespace Decimal

def value (negative : Bool) (d : Decimal) : Option Double :=
  ofDecimal negative d.coefficient d.exponent

/-- Drop trailing zeros, at most `fuel` of them. -/
def trim : Nat → Decimal → Decimal
  | 0, d => d
  | fuel + 1, d =>
    if d.coefficient != 0 && d.coefficient % 10 == 0 then
      trim fuel ⟨d.coefficient / 10, d.exponent + 1⟩
    else d

end Decimal

/-- `num * 10 ^ k / den` split into quotient, remainder and divisor. -/
def onGrid (num den : Nat) (k : Int) : Nat × Nat × Nat :=
  let n := if k < 0 then num else num * Nat.pow 10 k.natAbs
  let d := if k < 0 then den * Nat.pow 10 k.natAbs else den
  (n / d, n % d, d)

/-- Raise `k` while `10 ^ (k + 1) ≤ num / den`, at most `fuel` times. -/
def climb (num den : Nat) : Nat → Int → Int
  | 0, k => k
  | fuel + 1, k => if 1 ≤ (onGrid num den (-(k + 1))).1 then climb num den fuel (k + 1) else k

/-- The decimal exponent of the first digit of `num / den`. -/
def leadingExponent (num den : Nat) : Int :=
  let bits : Int := (Nat.log2 num : Int) - Nat.log2 den - 1
  climb num den 4 ((bits * 30103) / 100000 - 1)

/-- The better of the two neighbours of `d` with `digits` digits, if one reads back. -/
def onDigits (d : Double) (digits : Nat) : Option Decimal :=
  let e := leadingExponent d.units unitsPerOne - (digits : Int) + 1
  let (low, rest, den) := onGrid d.units unitsPerOne (-e)
  let below : Decimal := ⟨low, e⟩
  let above : Decimal := ⟨low + 1, e⟩
  let preferLow := 2 * rest < den || (2 * rest == den && low % 2 == 0)
  let first := if preferLow then below else above
  let second := if preferLow then above else below
  if first.value d.negative = some d then some first
  else if second.value d.negative = some d then some second
  else none

/-- The exact decimal: every double is an integer multiple of `10 ^ -1074`. -/
def exactDecimal (d : Double) : Decimal := ⟨d.units * Nat.pow 5 1074, -1074⟩

/-- The decimal with the fewest digits that reads back. -/
def shortest (d : Double) : Decimal :=
  let found := ((List.range 17).findSome? fun n => d.onDigits (n + 1)).getD d.exactDecimal
  found.trim 1100

def zeros (n : Nat) : List Char := List.replicate n '0'

/-- The digits of a decimal laid out around its point. -/
def Decimal.layout (d : Decimal) : List Char :=
  let digits := Nat.toDigits 10 d.coefficient
  let e : Int := d.exponent + digits.length - 1
  if e < -5 || 15 < e then
    let mantissa := match digits with
      | first :: [] => [first]
      | first :: rest => first :: '.' :: rest
      | [] => []
    mantissa ++ 'e' :: (if e < 0 then '-' else '+') :: Nat.toDigits 10 e.natAbs
  else if e < 0 then
    '0' :: '.' :: (zeros (e.natAbs - 1) ++ digits)
  else
    let whole := digits.take (e.natAbs + 1)
    let fraction := digits.drop (e.natAbs + 1)
    whole ++ zeros (e.natAbs + 1 - digits.length) ++
      '.' :: (if fraction.isEmpty then ['0'] else fraction)

/-- The text of a double. -/
def chars (d : Double) : List Char :=
  let unsigned := if d.isZero then ['0', '.', '0'] else d.shortest.layout
  if d.negative then '-' :: unsigned else unsigned

end RecordGraph.Double
