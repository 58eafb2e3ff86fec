import Mathlib.Algebra.Order.Ring.Nat
import RecordGraph.Double.Parts

/-!
Rounding of quotients to doubles. A common factor of both sides does not matter, and what a double can
hold exactly is rounded to itself: so are the doubles themselves, integers of at most 53 bits, and small
powers of ten. Products and quotients of two of these are rounded once.
-/
namespace RecordGraph.Double

/-! Logarithms of quotients -/

section log
variable {num den k : Nat}

theorem log2_mono {m n : Nat} (h : m ≤ n) : m.log2 ≤ n.log2 := by
  by_cases hm : m = 0
  · simp [hm]
  · rw [Nat.le_log2 (by omega)]
    exact (Nat.log2_self_le hm).trans h

theorem floorLog_of_lt (h : num < den) : floorLog num den = 0 := by
  have hlog := log2_mono h.le
  have hzero : num.log2 - den.log2 = 0 := by omega
  rw [floorLog, hzero]
  simp [h]

/-- The logarithm of a quotient is the power it reaches. -/
theorem floorLog_eq (low : den * 2 ^ k ≤ num) (high : num < den * 2 ^ (k + 1)) :
    floorLog num den = k := by
  have hden : den ≠ 0 := by
    rintro rfl
    simp at high
  have hnum : num ≠ 0 := by
    have := Nat.mul_pos (Nat.pos_of_ne_zero hden) (Nat.two_pow_pos k)
    omega
  have hle : den.log2 + k ≤ num.log2 := by
    rw [Nat.le_log2 hnum, Nat.pow_add]
    exact (Nat.mul_le_mul_right _ (Nat.log2_self_le hden)).trans low
  have hlt : num.log2 < den.log2 + 1 + (k + 1) := by
    rw [Nat.log2_lt hnum, Nat.pow_add]
    exact high.trans_le (Nat.mul_le_mul_right _ Nat.lt_log2_self.le)
  unfold floorLog
  simp only [Nat.shiftLeft_eq]
  rcases (by omega : num.log2 - den.log2 = k ∨ num.log2 - den.log2 = k + 1) with hk | hk
  · rw [hk, if_neg (by omega)]
  · rw [hk, if_pos high, Nat.add_sub_cancel]

theorem exists_floorLog (hden : 0 < den) (h : den ≤ num) :
    ∃ k, den * 2 ^ k ≤ num ∧ num < den * 2 ^ (k + 1) := by
  have hquotient : num / den ≠ 0 := (Nat.div_pos h hden).ne'
  refine ⟨(num / den).log2, ?_, ?_⟩
  · have hlow := Nat.log2_self_le hquotient
    rwa [Nat.le_div_iff_mul_le hden, Nat.mul_comm] at hlow
  · have hhigh := Nat.lt_log2_self (n := num / den)
    rwa [Nat.div_lt_iff_lt_mul hden, Nat.mul_comm] at hhigh

theorem floorLog_mul {c : Nat} (hc : 0 < c) (hden : 0 < den) :
    floorLog (num * c) (den * c) = floorLog num den := by
  rcases Nat.lt_or_ge num den with hlt | hle
  · rw [floorLog_of_lt hlt, floorLog_of_lt ((Nat.mul_lt_mul_right hc).mpr hlt)]
  · obtain ⟨k, low, high⟩ := exists_floorLog hden hle
    rw [floorLog_eq low high]
    apply floorLog_eq
    · rw [Nat.mul_right_comm]
      exact Nat.mul_le_mul_right c low
    · rw [Nat.mul_right_comm]
      exact (Nat.mul_lt_mul_right hc).mpr high

end log

/-! Common factors -/

section factor
variable {num den c : Nat}

theorem roundQuotient_mul (hc : 0 < c) : roundQuotient (num * c) (den * c) = roundQuotient num den := by
  have hlt (m n : Nat) : 2 * (m * c) < n * c ↔ 2 * m < n := by
    rw [← Nat.mul_assoc, Nat.mul_lt_mul_right hc]
  have hgt (m n : Nat) : n * c < 2 * (m * c) ↔ n < 2 * m := by
    rw [← Nat.mul_assoc, Nat.mul_lt_mul_right hc]
  simp only [roundQuotient, Nat.mul_div_mul_right _ _ hc, Nat.mul_mod_mul_right, hlt, hgt]

theorem magnitudeOfUnits_mul (hc : 0 < c) (hden : 0 < den) :
    magnitudeOfUnits (num * c) (den * c) = magnitudeOfUnits num den := by
  simp only [magnitudeOfUnits, floorLog_mul hc hden, Nat.shiftLeft_eq]
  rw [Nat.mul_right_comm, roundQuotient_mul hc]

/-- A common factor does not change what a quotient is rounded to. -/
theorem ofRatio_mul (negative : Bool) (hc : 0 < c) (hden : 0 < den) :
    ofRatio negative (num * c) (den * c) = ofRatio negative num den := by
  have hunits : num * c * unitsPerOne = num * unitsPerOne * c := Nat.mul_right_comm ..
  simp only [ofRatio, hunits, magnitudeOfUnits_mul hc hden]

end factor

/-! What a double holds exactly -/

theorem unitsPerOne_eq {j k : Nat} (h : j + k = 1074) : unitsPerOne = 2 ^ j * 2 ^ k := by
  rw [unitsPerOne, ← h, Nat.one_shiftLeft, Nat.pow_add]

theorem unitsPerOne_pos : 0 < unitsPerOne := by
  have hshift (k : Nat) : 0 < 1 <<< k := by
    rw [Nat.one_shiftLeft]
    exact Nat.two_pow_pos k
  exact hshift 1074

theorem roundQuotient_exact {m c : Nat} (hc : 0 < c) : roundQuotient (m * c) c = m := by
  simp [roundQuotient, Nat.mul_div_cancel _ hc, hc]

/-- A significand of 53 bits and its power are put together. -/
theorem magnitudeOfUnits_scaled {m j : Nat} (low : 2 ^ 52 ≤ m) (high : m < 2 ^ 53) :
    magnitudeOfUnits (m * 2 ^ j) 1 = j * 2 ^ 52 + m := by
  have hlog : floorLog (m * 2 ^ j) 1 = 52 + j := by
    apply floorLog_eq
    · rw [Nat.one_mul, Nat.pow_add]
      exact Nat.mul_le_mul_right _ low
    · rw [Nat.one_mul, Nat.add_right_comm, Nat.pow_add]
      exact (Nat.mul_lt_mul_right (Nat.two_pow_pos j)).mpr high
  simp only [magnitudeOfUnits, hlog, Nat.add_sub_cancel_left, Nat.shiftLeft_eq, Nat.one_mul,
    roundQuotient_exact (Nat.two_pow_pos j)]

theorem magnitudeOfUnits_small {m : Nat} (high : m < 2 ^ 52) : magnitudeOfUnits m 1 = m := by
  have hlog : floorLog m 1 - 52 = 0 := by
    by_cases hm : m = 0
    · simp [hm, floorLog_of_lt]
    · have hlt : m.log2 < 52 := (Nat.log2_lt hm).mpr high
      have heq : floorLog m 1 = m.log2 :=
        floorLog_eq (by simpa using Nat.log2_self_le hm) (by simpa using Nat.lt_log2_self)
      omega
  have hexact : roundQuotient m 1 = m := by
    simpa using roundQuotient_exact (m := m) (c := 1) Nat.one_pos
  simp only [magnitudeOfUnits, hlog, Nat.shiftLeft_zero, hexact, Nat.zero_shiftLeft, Nat.zero_add]

theorem units_small {d : Double} (h : d.magnitude < 2 ^ 52) : d.units = d.magnitude := by
  have hexponent : d.magnitude >>> 52 = 0 := by
    rw [Nat.shiftRight_eq_div_pow]
    exact Nat.div_eq_of_lt h
  rw [units, if_pos hexponent]
  exact Nat.mod_eq_of_lt h

theorem units_scaled {d : Double} {m j : Nat} (low : 2 ^ 52 ≤ m) (high : m < 2 ^ 53)
    (h : d.magnitude = j * 2 ^ 52 + m) : d.units = m * 2 ^ j := by
  have hexponent : d.magnitude >>> 52 = j + 1 := by
    rw [Nat.shiftRight_eq_div_pow, h]
    omega
  have hfraction : 0x10000000000000 + d.magnitude % 0x10000000000000 = m := by omega
  rw [units, hexponent, if_neg (Nat.succ_ne_zero j), hfraction, Nat.add_sub_cancel, Nat.shiftLeft_eq]

theorem magnitudeOfUnits_units (d : Double) : magnitudeOfUnits d.units 1 = d.magnitude := by
  by_cases hsmall : d.magnitude < 2 ^ 52
  · rw [units_small hsmall, magnitudeOfUnits_small hsmall]
  · have low : 2 ^ 52 ≤ 2 ^ 52 + d.magnitude % 2 ^ 52 := Nat.le_add_right ..
    have high : 2 ^ 52 + d.magnitude % 2 ^ 52 < 2 ^ 53 := by omega
    have h : d.magnitude = (d.magnitude / 2 ^ 52 - 1) * 2 ^ 52 + (2 ^ 52 + d.magnitude % 2 ^ 52) := by
      omega
    rw [units_scaled low high h, magnitudeOfUnits_scaled low high, ← h]

/-- A double is what its units are rounded to. -/
theorem ofRatio_units (d : Double) : ofRatio d.negative d.units unitsPerOne = some d := by
  have hmagnitude : magnitudeOfUnits (d.units * unitsPerOne) unitsPerOne = d.magnitude := by
    have hone : magnitudeOfUnits (d.units * unitsPerOne) (1 * unitsPerOne) = magnitudeOfUnits d.units 1 :=
      magnitudeOfUnits_mul unitsPerOne_pos Nat.one_pos
    rwa [Nat.one_mul, magnitudeOfUnits_units] at hone
  simp only [ofRatio, hmagnitude]
  rw [dif_pos d.finite]

/-- Integers of at most 53 bits are held exactly. -/
theorem ofRatio_whole (negative : Bool) {n : Nat} (h : n < 2 ^ 53) :
    ∃ d, ofRatio negative n 1 = some d ∧ d.negative = negative ∧ d.units = n * unitsPerOne := by
  by_cases hn : n = 0
  · subst hn
    refine ⟨⟨negative, 0, by decide⟩, ?_, rfl, ?_⟩
    · simp [ofRatio, magnitudeOfUnits_small]
    · rw [Nat.zero_mul]
      exact units_small (Nat.two_pow_pos 52)
  have hlog : n.log2 < 53 := (Nat.log2_lt hn).mpr h
  have low : 2 ^ 52 ≤ n * 2 ^ (52 - n.log2) := by
    calc 2 ^ 52 = 2 ^ n.log2 * 2 ^ (52 - n.log2) := by rw [← Nat.pow_add, Nat.add_sub_cancel' (by omega)]
      _ ≤ n * 2 ^ (52 - n.log2) := Nat.mul_le_mul_right _ (Nat.log2_self_le hn)
  have high : n * 2 ^ (52 - n.log2) < 2 ^ 53 := by
    calc n * 2 ^ (52 - n.log2) < 2 ^ (n.log2 + 1) * 2 ^ (52 - n.log2) :=
          (Nat.mul_lt_mul_right (Nat.two_pow_pos _)).mpr Nat.lt_log2_self
      _ = 2 ^ 53 := by rw [← Nat.pow_add]; congr 1; omega
  have hunits : n * unitsPerOne = n * 2 ^ (52 - n.log2) * 2 ^ (1022 + n.log2) := by
    rw [unitsPerOne_eq (by omega : 52 - n.log2 + (1022 + n.log2) = 1074), Nat.mul_assoc]
  have hmagnitude := magnitudeOfUnits_scaled (j := 1022 + n.log2) low high
  rw [← hunits] at hmagnitude
  have hfinite : magnitudeOfUnits (n * unitsPerOne) 1 < 0x7FF0000000000000 := by
    rw [hmagnitude]
    omega
  refine ⟨⟨negative, _, hfinite⟩, ?_, rfl, ?_⟩
  · simp only [ofRatio]
    rw [dif_pos hfinite]
  · exact (units_scaled low high hmagnitude).trans hunits.symm

/-- Small powers of ten are held exactly. -/
theorem tenPower_small {k : Nat} (h : k ≤ 22) :
    ∃ d, tenPower k = some d ∧ d.units = 10 ^ k * unitsPerOne := by
  have hall : ((List.range 23).all fun k =>
      (tenPower k).any fun d => d.units == 10 ^ k * unitsPerOne) = true := by decide +kernel
  have hk := List.all_eq_true.mp hall k (List.mem_range.mpr (by omega))
  rw [Option.any_eq_true] at hk
  obtain ⟨d, hd, hunits⟩ := hk
  exact ⟨d, hd, beq_iff_eq.mp hunits⟩

/-- A significand of at most 53 bits and a small power of ten are put together with one rounding. -/
theorem ofParts_eq_ofDecimal (negative : Bool) {significand : Nat} {exponent : Int}
    (whole : significand < 2 ^ 53) (small : exponent.natAbs ≤ 22) :
    ofParts negative significand exponent = ofDecimal negative significand exponent := by
  obtain ⟨d, hd, rfl, hunits⟩ := ofRatio_whole negative whole
  obtain ⟨power, hpower, hten⟩ := tenPower_small small
  have hpos : 0 < 10 ^ exponent.natAbs := Nat.pow_pos (by decide)
  rw [ofParts, hd, ofDecimal]
  simp only [Option.bind_eq_bind, Option.bind_some]
  by_cases hneg : exponent < 0
  · rw [if_pos hneg, if_pos hneg, lower, if_pos (by omega), hpower, Option.bind_some, scaleDown, hunits,
      hten, ofRatio_mul _ unitsPerOne_pos hpos]
    rfl
  · rw [if_neg hneg, if_neg hneg, if_pos (by omega), hpower, Option.bind_some, scaleUp, hunits, hten]
    have hfactor : significand * unitsPerOne * (10 ^ exponent.natAbs * unitsPerOne) =
        significand * 10 ^ exponent.natAbs * (unitsPerOne * unitsPerOne) := Nat.mul_mul_mul_comm ..
    have hmul : ofRatio d.negative (significand * 10 ^ exponent.natAbs * (unitsPerOne * unitsPerOne))
        (1 * (unitsPerOne * unitsPerOne)) = ofRatio d.negative (significand * 10 ^ exponent.natAbs) 1 :=
      ofRatio_mul d.negative (Nat.mul_pos unitsPerOne_pos unitsPerOne_pos) Nat.one_pos
    rw [Nat.one_mul] at hmul
    rw [hfactor, hmul]
    rfl

end RecordGraph.Double
