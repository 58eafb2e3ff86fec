import RecordGraph.Proofs.Double.Shortest
import RecordGraph.Proofs.Value.Numbers

/-!
Doubles with few digits are read back. The digits of a decimal are read from where they are laid out; as
long as 53 bits hold them and the power of ten is small, they are put together with one rounding, as the
double they were written for.
-/
namespace RecordGraph.Number

theorem takeExponent_all {ds : List Char} (digits : ∀ d ∈ ds, d.isDigit) {n : Nat}
    (fits : Nat.ofDigitChars 10 ds n < 0x80000000) :
    takeExponent n ds = (Nat.ofDigitChars 10 ds n, []) := by
  induction ds generalizing n with
  | nil => rfl
  | cons d ds ih =>
    rw [List.forall_mem_cons] at digits
    have hge := ofDigitChars_ge (d :: ds) n
    have hvalue : n * 10 + digitValue d = 10 * n + (d.toNat - '0'.toNat) := by
      rw [Nat.mul_comm]
      rfl
    rw [takeExponent, if_pos (by rw [digits.1, Bool.true_and, decide_eq_true_eq]; omega), hvalue]
    rw [Nat.ofDigitChars_cons] at fits ⊢
    exact ih digits.2 fits

section read
variable (negative : Bool) (significand : Nat) (exponent : Int)

/-- An exponent is read from its sign and digits. -/
theorem readExponent_signed {e : Int} (he : e.natAbs < 0x80000000) :
    readExponent negative significand exponent
      ((if e < 0 then '-' else '+') :: Nat.toDigits 10 e.natAbs) =
        scaled negative significand (exponent + e) [] := by
  have hvalue : Nat.ofDigitChars 10 (Nat.toDigits 10 e.natAbs) 0 = e.natAbs :=
    Nat.ofDigitChars_toDigits (by decide) (by decide)
  have htake := takeExponent_all (isDigit_toDigits e.natAbs) (n := 0) (by rwa [hvalue])
  rw [hvalue] at htake
  have hsign : (if e < 0 then '-' else '+') ∈ ['+', '-'] := by split <;> decide
  have hread := readExponent_digits negative significand exponent hsign Nat.toDigits_ne_nil
    (isDigit_toDigits e.natAbs) .nil
  rw [List.append_nil, htake, if_pos he] at hread
  rw [hread]
  congr 1
  by_cases hneg : e < 0
  · simp only [hneg, if_true]
    omega
  · simp only [hneg, if_false]
    rw [if_neg (by decide)]
    omega

/-- The digits behind the point go on with the significand. -/
theorem readFraction_digits {ds e : List Char} (filled : ds ≠ []) (digits : ∀ d ∈ ds, d.isDigit)
    (fits : Nat.ofDigitChars 10 ds significand < UInt64.size) (he : startsWithDigit e = false) :
    readFraction negative significand exponent (ds ++ e) =
      readScale negative (Nat.ofDigitChars 10 ds significand) (exponent - ds.length) e := by
  have happend := takeDigits_append he significand ds
  rw [takeDigits_all digits fits, List.nil_append] at happend
  have hdrop : e.dropWhile Char.isDigit = e := by simpa using dropWhile_append he []
  rw [readFraction, if_pos (startsWithDigit_digits filled digits e), happend]
  simp [hdrop]

end read

/-- Digits around a point are read as one significand. -/
theorem readUnsigned_point (negative : Bool) {ws ds e : List Char}
    (whole : ws = ['0'] ∨ ws ≠ [] ∧ ws.head? ≠ some '0') (filled : ds ≠ [])
    (digits : ∀ d ∈ ws ++ ds, d.isDigit) (fits : Nat.ofDigitChars 10 (ws ++ ds) 0 < UInt64.size)
    (he : startsWithDigit e = false) :
    readUnsigned negative (ws ++ '.' :: (ds ++ e)) =
      readScale negative (Nat.ofDigitChars 10 (ws ++ ds) 0) (-(ds.length : Int)) e := by
  rw [List.forall_mem_append] at digits
  rw [Nat.ofDigitChars_append] at fits ⊢
  have hfraction := readFraction_digits negative (Nat.ofDigitChars 10 ws 0) 0 filled digits.2 fits he
  rw [Int.zero_sub] at hfraction
  rw [← hfraction]
  rcases whole with rfl | ⟨hws, head⟩
  · rfl
  · have hfits := (ofDigitChars_ge ds (Nat.ofDigitChars 10 ws 0)).trans_lt fits
    rw [readUnsigned_digits negative hws digits.1 head hfits rfl]
    rfl

theorem ofDigitChars_zeros (k n : Nat) : Nat.ofDigitChars 10 (Double.zeros k) n = n * 10 ^ k := by
  induction k generalizing n with
  | zero => simp [Double.zeros]
  | succ k ih =>
    have hzeros : Double.zeros (k + 1) = '0' :: Double.zeros k := rfl
    have hzero : 10 * n + ('0'.toNat - '0'.toNat) = n * 10 := by
      rw [Nat.sub_self, Nat.add_zero, Nat.mul_comm]
    rw [hzeros, Nat.ofDigitChars_cons, hzero, ih, Nat.pow_succ, Nat.mul_assoc, Nat.mul_comm 10]

section layout
variable (negative : Bool) {ds : List Char}

/-- One digit and an exponent. -/
theorem readUnsigned_digit {c : Char} (digits : ∀ d ∈ [c], d.isDigit) (head : [c].head? ≠ some '0')
    (fits : Nat.ofDigitChars 10 [c] 0 < UInt64.size) {e : Int} (he : e.natAbs < 0x80000000) :
    readUnsigned negative
        ([c] ++ 'e' :: (if e < 0 then '-' else '+') :: Nat.toDigits 10 e.natAbs) =
      scaled negative (Nat.ofDigitChars 10 [c] 0) e [] := by
  have hexponent := readExponent_signed negative (Nat.ofDigitChars 10 [c] 0) 0 he
  rw [Int.zero_add] at hexponent
  rw [readUnsigned_digits negative (by simp) digits head fits rfl, ← hexponent]
  rfl

/-- A digit, a fraction and an exponent. -/
theorem readUnsigned_scale {c : Char} (filled : ds ≠ []) (digits : ∀ d ∈ c :: ds, d.isDigit)
    (head : (c :: ds).head? ≠ some '0') (fits : Nat.ofDigitChars 10 (c :: ds) 0 < UInt64.size)
    {e : Int} (he : e.natAbs < 0x80000000) :
    readUnsigned negative
        (c :: '.' :: ds ++ 'e' :: (if e < 0 then '-' else '+') :: Nat.toDigits 10 e.natAbs) =
      scaled negative (Nat.ofDigitChars 10 (c :: ds) 0) (e - ds.length) [] := by
  have hexponent := readExponent_signed negative (Nat.ofDigitChars 10 (c :: ds) 0)
    (-(ds.length : Int)) he
  rw [Int.add_comm, ← Int.sub_eq_add_neg] at hexponent
  rw [← hexponent]
  have hpoint := readUnsigned_point negative (.inr ⟨List.cons_ne_nil c [], head⟩) filled digits fits
    (e := 'e' :: (if e < 0 then '-' else '+') :: Nat.toDigits 10 e.natAbs) rfl
  exact hpoint

/-- Digits behind a point and zeros. -/
theorem readUnsigned_zeros (filled : ds ≠ []) (digits : ∀ d ∈ ds, d.isDigit)
    (fits : Nat.ofDigitChars 10 ds 0 < UInt64.size) (k : Nat) :
    readUnsigned negative ('0' :: '.' :: (Double.zeros k ++ ds)) =
      scaled negative (Nat.ofDigitChars 10 ds 0) (-((k + ds.length : Nat) : Int)) [] := by
  have hvalue : Nat.ofDigitChars 10 (['0'] ++ (Double.zeros k ++ ds)) 0 = Nat.ofDigitChars 10 ds 0 := by
    have hzero : Nat.ofDigitChars 10 ['0'] 0 = 0 := rfl
    rw [Nat.ofDigitChars_append, Nat.ofDigitChars_append, hzero, ofDigitChars_zeros, Nat.zero_mul]
  have hdigits : ∀ d ∈ ['0'] ++ (Double.zeros k ++ ds), d.isDigit :=
    List.forall_mem_append.mpr ⟨List.forall_mem_singleton.mpr (by decide),
      List.forall_mem_append.mpr ⟨digits_zeros k, digits⟩⟩
  have hpoint := readUnsigned_point negative (.inl rfl) (by simp [filled]) hdigits (hvalue ▸ fits)
    (e := []) rfl
  rw [List.append_nil, hvalue, List.length_append, Double.zeros, List.length_replicate] at hpoint
  exact hpoint

/-- Digits around a point. -/
theorem readUnsigned_split {fs : List Char} (whole : ds ≠ []) (filled : fs ≠ [])
    (digits : ∀ d ∈ ds ++ fs, d.isDigit) (head : ds.head? ≠ some '0')
    (fits : Nat.ofDigitChars 10 (ds ++ fs) 0 < UInt64.size) :
    readUnsigned negative (ds ++ '.' :: fs) =
      scaled negative (Nat.ofDigitChars 10 (ds ++ fs) 0) (-(fs.length : Int)) [] := by
  have hpoint := readUnsigned_point negative (.inr ⟨whole, head⟩) filled digits fits (e := []) rfl
  rwa [List.append_nil] at hpoint

section places
variable {places : Nat}

/-- The digits laid out with a point behind the given places, zeros where there are no digits. -/
def positional (places : Nat) (ds : List Char) : List Char :=
  ds.take places ++ Double.zeros (places - ds.length) ++
    '.' :: (if (ds.drop places).isEmpty then ['0'] else ds.drop places)

/-- The point stands among the digits. -/
theorem readUnsigned_among (positive : 0 < places) (less : places < ds.length)
    (digits : ∀ d ∈ ds, d.isDigit) (head : ds.head? ≠ some '0')
    (fits : Nat.ofDigitChars 10 ds 0 < UInt64.size) :
    readUnsigned negative (positional places ds) =
      scaled negative (Nat.ofDigitChars 10 ds 0) (-((ds.length - places : Nat) : Int)) [] := by
  have hsplit : ds.take places ++ ds.drop places = ds := List.take_append_drop ..
  have hwhole : ds.take places ≠ [] := by
    rw [← List.length_pos_iff, List.length_take]
    omega
  have hfraction : ds.drop places ≠ [] := by
    rw [← List.length_pos_iff, List.length_drop]
    omega
  have hhead : (ds.take places).head? = ds.head? := by
    conv_rhs => rw [← hsplit]
    exact (List.head?_append_of_ne_nil _ hwhole).symm
  have hzeros : Double.zeros (places - ds.length) = [] := by
    rw [Nat.sub_eq_zero_of_le less.le]
    rfl
  have hread := readUnsigned_split negative hwhole hfraction (hsplit.symm ▸ digits) (hhead ▸ head)
    (hsplit.symm ▸ fits)
  rw [hsplit, List.length_drop] at hread
  rwa [positional, hzeros, List.append_nil, if_neg (by simpa using hfraction)]

/-- Zeros and the point stand behind the digits. -/
theorem readUnsigned_behind (filled : ds ≠ []) (k : Nat) (digits : ∀ d ∈ ds, d.isDigit)
    (head : ds.head? ≠ some '0') (fits : Nat.ofDigitChars 10 ds 0 * 10 ^ (k + 1) < UInt64.size) :
    readUnsigned negative (positional (k + ds.length) ds) =
      scaled negative (Nat.ofDigitChars 10 ds 0 * 10 ^ (k + 1)) (-1) [] := by
  have hdigits : ∀ c ∈ ds ++ Double.zeros k ++ ['0'], c.isDigit :=
    List.forall_mem_append.mpr ⟨List.forall_mem_append.mpr ⟨digits, digits_zeros _⟩,
      List.forall_mem_singleton.mpr (by decide)⟩
  have hvalue : Nat.ofDigitChars 10 (ds ++ Double.zeros k ++ ['0']) 0 =
      Nat.ofDigitChars 10 ds 0 * 10 ^ (k + 1) := by
    have hzero : ['0'] = Double.zeros 1 := rfl
    rw [Nat.ofDigitChars_append, Nat.ofDigitChars_append, hzero, ofDigitChars_zeros,
      ofDigitChars_zeros, Nat.mul_assoc, ← Nat.pow_add]
  have hread := readUnsigned_split negative (List.append_ne_nil_of_left_ne_nil filled _)
    (List.cons_ne_nil '0' []) hdigits (by rwa [List.head?_append_of_ne_nil _ filled]) (hvalue ▸ fits)
  rw [hvalue] at hread
  rw [positional, List.take_of_length_le (Nat.le_add_left ..), List.drop_of_length_le (Nat.le_add_left ..),
    Nat.add_sub_cancel]
  exact hread

end places
end layout

/-- The text of a decimal is read as its written digits and their power of ten. -/
theorem readUnsigned_layout (negative : Bool) {d : Double.Decimal} (positive : d.coefficient ≠ 0)
    (fits : d.written.coefficient < UInt64.size) (small : d.written.exponent.natAbs ≤ 0x10000) :
    readUnsigned negative d.layout =
      scaled negative d.written.coefficient d.written.exponent [] := by
  have hvalue : Nat.ofDigitChars 10 (Nat.toDigits 10 d.coefficient) 0 = d.coefficient :=
    Nat.ofDigitChars_toDigits (by decide) (by decide)
  have digits := isDigit_toDigits d.coefficient
  have head := head_toDigits positive
  have filled := Nat.toDigits_ne_nil (n := d.coefficient) (b := 10)
  have hfits : d.coefficient < UInt64.size := d.le_written.trans_lt fits
  have hlength : (Nat.toDigits 10 d.coefficient).length ≤ 20 :=
    (Nat.length_toDigits_le_iff (by decide) (by decide)).mpr (hfits.trans (by decide))
  have hpos := List.length_pos_of_ne_nil filled
  unfold Double.Decimal.written at fits small ⊢
  unfold Double.Decimal.layout
  generalize Nat.toDigits 10 d.coefficient = ds at *
  dsimp only
  -- the first digit, the others behind the point, and an exponent
  by_cases hscale : d.exponent + ds.length - 1 < -5 ∨ 15 < d.exponent + ds.length - 1
  · have hwritten : ¬(0 ≤ d.exponent ∧ d.exponent + ds.length ≤ 16) := by omega
    rw [if_neg hwritten] at small
    rw [if_pos (by simpa using hscale), if_neg hwritten]
    match ds with
    | [] => exact absurd rfl filled
    | [c] =>
      have hread := readUnsigned_digit negative digits head (hvalue ▸ hfits)
        (e := d.exponent + [c].length - 1) (by omega)
      have hexponent : d.exponent + [c].length - 1 = d.exponent := by simp
      rw [hvalue] at hread
      exact hread.trans (congrArg (scaled negative d.coefficient · []) hexponent)
    | c :: c' :: ds =>
      have hread := readUnsigned_scale negative (List.cons_ne_nil c' ds) digits head (hvalue ▸ hfits)
        (e := d.exponent + (c :: c' :: ds).length - 1) (by omega)
      have hexponent : d.exponent + (c :: c' :: ds).length - 1 - (c' :: ds).length = d.exponent := by
        simp only [List.length_cons]
        omega
      rw [hvalue] at hread
      exact hread.trans (congrArg (scaled negative d.coefficient · []) hexponent)
  rw [if_neg (by simpa using hscale)]
  -- a zero before the point, zeros behind it
  by_cases hleading : d.exponent + ds.length - 1 < 0
  · have hwritten : ¬(0 ≤ d.exponent ∧ d.exponent + ds.length ≤ 16) := by omega
    have hread := readUnsigned_zeros negative filled digits (hvalue ▸ hfits)
      ((d.exponent + ds.length - 1).natAbs - 1)
    have hexponent : -(((d.exponent + ds.length - 1).natAbs - 1 + ds.length : Nat) : Int) =
        d.exponent := by omega
    rw [if_pos hleading, if_neg hwritten]
    rwa [hvalue, hexponent] at hread
  rw [if_neg hleading]
  -- the point among the digits, or behind them and zeros
  by_cases hfraction : d.exponent < 0
  · have hwritten : ¬(0 ≤ d.exponent ∧ d.exponent + ds.length ≤ 16) := by omega
    have hless : (d.exponent + ds.length - 1).natAbs + 1 < ds.length := by omega
    have hread := readUnsigned_among negative (Nat.succ_pos _) hless digits head (hvalue ▸ hfits)
    have hexponent : -((ds.length - ((d.exponent + ds.length - 1).natAbs + 1) : Nat) : Int) =
        d.exponent := by omega
    rw [hvalue, hexponent] at hread
    rwa [if_neg hwritten]
  · have hwritten : 0 ≤ d.exponent ∧ d.exponent + ds.length ≤ 16 := by omega
    have hplaces : (d.exponent + ds.length - 1).natAbs + 1 = d.exponent.natAbs + ds.length := by omega
    rw [if_pos hwritten] at fits
    have hread := readUnsigned_behind negative filled d.exponent.natAbs digits head (by rwa [hvalue])
    rw [hvalue] at hread
    rwa [if_pos hwritten, hplaces]

/-! Doubles with few digits -/

variable {d : Double}

theorem startsWithDigit_layout (x : Double.Decimal) : startsWithDigit x.layout := by
  obtain ⟨ws, f, e, filled, digits, -, -, hlayout⟩ := numeral_layout x
  rw [hlayout, List.append_assoc]
  exact startsWithDigit_digits filled digits _

theorem reread_of_parts {cs : List Char} {significand : Nat} {exponent : Int}
    (hchars : (Number.double d).chars = if d.negative then '-' :: cs else cs)
    (starts : startsWithDigit cs)
    (hread : readUnsigned d.negative cs = scaled d.negative significand exponent [])
    (hparts : Double.ofParts d.negative significand exponent = some d) :
    (Number.double d).reread = some (.double d) := by
  rw [scaled, hparts] at hread
  have hsigned : read (Number.double d).chars = readUnsigned d.negative cs := by
    rw [hchars]
    cases d.negative with
    | false => exact read_unsigned starts
    | true => rfl
  rw [reread, hsigned, hread]
  rfl

/-- A double of few digits is read back from its text. -/
theorem reread_short (short : d.isZero ∨ d.shortest.Short) :
    (Number.double d).reread = some (.double d) := by
  by_cases hzero : d.isZero
  · have hmagnitude : d.magnitude = 0 := beq_iff_eq.mp hzero
    have hparts : Double.ofParts d.negative 0 (-1) = some d := by
      rw [Double.ofParts_eq_ofDecimal _ (Nat.two_pow_pos 53) (by decide), Double.ofDecimal,
        if_pos (by decide), Double.ofRatio_zero _ (by decide)]
      cases d
      simp_all
    have hread : readUnsigned d.negative ['0', '.', '0'] = scaled d.negative 0 (-1) [] :=
      readUnsigned_zeros d.negative (List.cons_ne_nil '0' []) (List.forall_mem_singleton.mpr rfl)
        (by decide) 0
    exact reread_of_parts (by simp [chars, Double.chars, hzero]) rfl hread hparts
  · have short := short.resolve_left hzero
    have positive := Double.coefficient_shortest (Bool.eq_false_iff.mpr hzero)
    have hread := readUnsigned_layout d.negative positive
      (short.digits.trans (by decide)) (short.power.trans (by decide))
    refine reread_of_parts ?_ (startsWithDigit_layout _) hread ?_
    · simp [chars, Double.chars, hzero]
    · rw [short.ofParts, Double.value_shortest]

end RecordGraph.Number
