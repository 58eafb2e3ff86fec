import RecordGraph.Double.Decimal
import RecordGraph.Proofs.Double.Rounding

/-!
The decimal that is written for a double is one that is rounded to the double: the digits that are tried
are kept only if they read back, and where none do the exact decimal is written. If it has few digits and
a small power of ten, the digits and the power make the double again.
-/
namespace RecordGraph.Double

variable {d : Double} {x : Decimal}

theorem ofRatio_zero (negative : Bool) {den : Nat} (hden : 0 < den) :
    ofRatio negative 0 den = some ⟨negative, 0, by decide⟩ := by
  simp [ofRatio, magnitudeOfUnits, floorLog_of_lt hden, roundQuotient, hden]

/-- A factor of ten may stand in the coefficient or in the exponent. -/
theorem ofDecimal_ten (negative : Bool) (coefficient : Nat) (exponent : Int) :
    ofDecimal negative (coefficient * 10) exponent = ofDecimal negative coefficient (exponent + 1) := by
  have hten : 0 < 10 := by decide
  have hpos (k : Nat) : 0 < 10 ^ k := Nat.pow_pos hten
  have hpow (k : Nat) : 10 ^ (k + 1) = 10 ^ k * 10 := Nat.pow_succ ..
  simp only [ofDecimal, Nat.pow_eq]
  rcases lt_trichotomy exponent (-1) with hlow | rfl | hhigh
  · have hsucc : exponent.natAbs = (exponent + 1).natAbs + 1 := by omega
    rw [if_pos (by omega), if_pos (by omega), hsucc, hpow, ofRatio_mul _ hten (hpos _)]
  · have hone : ofRatio negative (coefficient * 10) (1 * 10) = ofRatio negative coefficient 1 :=
      ofRatio_mul negative hten Nat.one_pos
    rw [if_pos (by decide), if_neg (by decide)]
    simpa using hone
  · have hsucc : (exponent + 1).natAbs = exponent.natAbs + 1 := by omega
    rw [if_neg (by omega), if_neg (by omega), hsucc, hpow, Nat.mul_assoc, Nat.mul_comm 10]

theorem ofDecimal_tens (negative : Bool) (coefficient k : Nat) (exponent : Int) :
    ofDecimal negative (coefficient * 10 ^ k) exponent =
      ofDecimal negative coefficient (exponent + k) := by
  induction k generalizing exponent with
  | zero => simp
  | succ k ih =>
    rw [Nat.pow_succ, ← Nat.mul_assoc, ofDecimal_ten, ih]
    congr 1
    omega

theorem Decimal.value_trim (negative : Bool) (fuel : Nat) (x : Decimal) :
    (x.trim fuel).value negative = x.value negative := by
  induction fuel generalizing x with
  | zero => rfl
  | succ fuel ih =>
    rw [trim]
    split
    · rename_i h
      have hzeros : x.coefficient / 10 * 10 = x.coefficient := by
        simp only [Bool.and_eq_true, bne_iff_ne, beq_iff_eq] at h
        omega
      rw [ih, value, value, ← ofDecimal_ten, hzeros]
    · rfl

theorem value_of_onDigits {digits : Nat} (h : d.onDigits digits = some x) :
    x.value d.negative = some d := by
  unfold onDigits at h
  dsimp only at h
  generalize onGrid d.units unitsPerOne _ = grid at h
  split_ifs at h with _ hfirst hsecond hfirst hsecond <;> cases h <;> assumption

theorem value_exactDecimal (d : Double) : d.exactDecimal.value d.negative = some d := by
  have hexact (k : Nat) (e : Int) (he : e = -(k : Int)) (hone : unitsPerOne = 1 <<< k) :
      ofDecimal d.negative (d.units * Nat.pow 5 k) e = some d := by
    subst he
    have hfive : 0 < 5 ^ k := Nat.pow_pos (by decide)
    have hone' : unitsPerOne = 2 ^ k := hone.trans (Nat.one_shiftLeft k)
    have hten : 10 ^ k = unitsPerOne * 5 ^ k := by
      rw [hone', ← Nat.mul_pow]
    have hround : ofRatio d.negative (d.units * 5 ^ k) (unitsPerOne * 5 ^ k) = some d :=
      (ofRatio_mul d.negative hfive unitsPerOne_pos).trans (ofRatio_units d)
    rw [← hten] at hround
    by_cases hk : k = 0
    · subst hk
      rw [ofDecimal, if_neg (by decide)]
      simpa using hround
    · rw [ofDecimal, if_pos (by omega), Int.natAbs_neg, Int.natAbs_natCast]
      exact hround
  unfold Decimal.value exactDecimal
  -- as a number, the power of five would be computed
  generalize hplaces : 1074 = places
  exact hexact places (-1074) (by rw [← hplaces]; rfl) (by rw [← hplaces, unitsPerOne])

/-- The decimal that is written for a double is rounded to it. -/
theorem value_shortest (d : Double) : d.shortest.value d.negative = some d := by
  rw [shortest, Decimal.value_trim]
  cases hfound : (List.range 17).findSome? fun n => d.onDigits (n + 1) with
  | none => exact value_exactDecimal d
  | some x =>
    obtain ⟨n, -, hn⟩ := List.exists_of_findSome?_eq_some hfound
    exact value_of_onDigits hn

theorem coefficient_shortest (h : d.isZero = false) : d.shortest.coefficient ≠ 0 := by
  intro hzero
  have hvalue := value_shortest d
  have hpos : 0 < Nat.pow 10 d.shortest.exponent.natAbs := Nat.pow_pos (by decide)
  rw [Decimal.value, hzero, ofDecimal, Nat.zero_mul, ofRatio_zero _ hpos, ofRatio_zero _ Nat.one_pos,
    ite_self, Option.some.injEq] at hvalue
  rw [← hvalue] at h
  cases h

/-! Few digits -/

namespace Decimal

/-- The digits of a decimal as they are laid out around the point, and their power of ten. A decimal
without a fraction has a zero behind the point. -/
def written (x : Decimal) : Decimal :=
  if 0 ≤ x.exponent ∧ x.exponent + (Nat.toDigits 10 x.coefficient).length ≤ 16 then
    ⟨x.coefficient * 10 ^ (x.exponent.natAbs + 1), -1⟩
  else x

/-- The digits that are laid out fit into 53 bits, and their power of ten is small. -/
structure Short (x : Decimal) : Prop where
  digits : x.written.coefficient < 2 ^ 53
  power : x.written.exponent.natAbs ≤ 22

theorem le_written (x : Decimal) : x.coefficient ≤ x.written.coefficient := by
  unfold written
  split
  · exact Nat.le_mul_of_pos_right _ (Nat.pow_pos (by decide))
  · exact Nat.le_refl _

theorem value_written (negative : Bool) (x : Decimal) :
    x.written.value negative = x.value negative := by
  unfold written
  split
  · rw [value, ofDecimal_tens, value]
    congr 1
    dsimp only
    omega
  · rfl

/-- A short decimal is put together as the double it is rounded to. -/
theorem Short.ofParts (short : x.Short) (negative : Bool) :
    Double.ofParts negative x.written.coefficient x.written.exponent = x.value negative := by
  rw [ofParts_eq_ofDecimal negative short.digits short.power, ← value_written, value]

end Decimal

end RecordGraph.Double
