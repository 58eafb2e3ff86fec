import RecordGraph.Double.Basic

/-!
Doubles from a whole significand and a power of ten. The significand and the result are rounded one
after the other, so the last bit may differ from the nearest double.
-/
namespace RecordGraph.Double

/-- The double nearest to a power of ten. -/
def tenPower (k : Nat) : Option Double := ofDecimal false 1 k

/-- Divide by `10 ^ k`, at most 308 places at a time. -/
def lower (k : Nat) (d : Double) : Option Double :=
  if k ≤ 308 then (tenPower k).bind d.scaleDown
  else if d.isZero then some d
  else ((tenPower 308).bind d.scaleDown).bind (lower (k - 308))
termination_by k

/-- `significand * 10 ^ exponent`, none beyond the finite range. -/
def ofParts (negative : Bool) (significand : Nat) (exponent : Int) : Option Double := do
  let d ← ofRatio negative significand 1
  if exponent < 0 then lower exponent.natAbs d
  else if exponent ≤ 308 then (tenPower exponent.natAbs).bind d.scaleUp
  else if d.isZero then some d else none

end RecordGraph.Double
