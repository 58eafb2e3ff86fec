import Mathlib.Data.List.TakeWhile
import RecordGraph.Proofs.Outcome
import RecordGraph.Value.Printer
import RecordGraph.Value.Scan

/-!
Numbers are read from their text as far as it goes. What follows a number does not change how it is
read, unless it would go on with the number. Integers are read back; doubles are read as what their
digits are rounded to, which need not be the double they were written for.
-/
namespace RecordGraph.Number
open Value

/-- What follows does not go on with a number. -/
def Stops (r : List Char) : Prop :=
  ∀ c, r.head? = some c → c.isDigit = false ∧ c ∉ ['.', 'e', 'E', '+', '-']

theorem Stops.nil : Stops [] := by
  intro c hc
  cases hc

theorem Stops.cons {c : Char} {r : List Char} (hdigit : c.isDigit = false)
    (hmark : c ∉ ['.', 'e', 'E', '+', '-']) : Stops (c :: r) := by
  intro d hd
  cases hd
  exact ⟨hdigit, hmark⟩

section stops
variable {r : List Char}

theorem startsWithDigit_of_head (h : ∀ c, r.head? = some c → c.isDigit = false) :
    startsWithDigit r = false := by
  cases r with
  | nil => rfl
  | cons c r => exact h c rfl

theorem takeDigits_append (h : startsWithDigit r = false) (n : Nat) (cs : List Char) :
    takeDigits n (cs ++ r) = ((takeDigits n cs).1, (takeDigits n cs).2 ++ r) := by
  induction cs generalizing n with
  | nil =>
    cases r with
    | nil => rfl
    | cons c r =>
      have hc : c.isDigit = false := h
      simp [takeDigits, hc]
  | cons c cs ih =>
    rw [List.cons_append, takeDigits, takeDigits]
    split
    · exact ih _
    · rfl

theorem takeExponent_append (h : startsWithDigit r = false) (n : Nat) (cs : List Char) :
    takeExponent n (cs ++ r) = ((takeExponent n cs).1, (takeExponent n cs).2 ++ r) := by
  induction cs generalizing n with
  | nil =>
    cases r with
    | nil => rfl
    | cons c r =>
      have hc : c.isDigit = false := h
      simp [takeExponent, hc]
  | cons c cs ih =>
    rw [List.cons_append, takeExponent, takeExponent]
    split
    · exact ih _
    · rfl

theorem dropWhile_append (h : startsWithDigit r = false) (cs : List Char) :
    (cs ++ r).dropWhile Char.isDigit = cs.dropWhile Char.isDigit ++ r := by
  induction cs with
  | nil =>
    cases r with
    | nil => rfl
    | cons c r => exact List.dropWhile_cons_of_neg (by simpa [startsWithDigit] using h)
  | cons c cs ih =>
    rw [List.cons_append, List.dropWhile_cons, List.dropWhile_cons, ih]
    split <;> rfl

theorem takeWhile_append (h : startsWithDigit r = false) (cs : List Char) :
    (cs ++ r).takeWhile Char.isDigit = cs.takeWhile Char.isDigit := by
  induction cs with
  | nil =>
    cases r with
    | nil => rfl
    | cons c r => exact List.takeWhile_cons_of_neg (by simpa [startsWithDigit] using h)
  | cons c cs ih => rw [List.cons_append, List.takeWhile_cons, List.takeWhile_cons, ih]

end stops

theorem startsWithDigit_digits {ds : List Char} (hds : ds ≠ []) (digits : ∀ d ∈ ds, d.isDigit)
    (cs : List Char) : startsWithDigit (ds ++ cs) := by
  obtain ⟨d, ds, rfl⟩ := List.exists_cons_of_ne_nil hds
  exact digits d List.mem_cons_self

/-! Integers -/

theorem ofDigitChars_ge (ds : List Char) (n : Nat) : n ≤ Nat.ofDigitChars 10 ds n := by
  rw [Nat.ofDigitChars_eq_ofDigitChars_zero]
  have hpow : 0 < 10 ^ ds.length := Nat.pow_pos (by decide)
  have hmul : n ≤ 10 ^ ds.length * n := Nat.le_mul_of_pos_left n hpow
  omega

/-- Digits that 64 bits hold are all taken. -/
theorem takeDigits_all {ds : List Char} (digits : ∀ d ∈ ds, d.isDigit) {n : Nat}
    (fits : Nat.ofDigitChars 10 ds n < UInt64.size) :
    takeDigits n ds = (Nat.ofDigitChars 10 ds n, []) := by
  induction ds generalizing n with
  | nil => rfl
  | cons d ds ih =>
    rw [List.forall_mem_cons] at digits
    have hvalue : n * 10 + digitValue d = 10 * n + (d.toNat - '0'.toNat) := by
      rw [Nat.mul_comm]
      rfl
    rw [Nat.ofDigitChars_cons] at fits
    have hle := ofDigitChars_ge ds (10 * n + (d.toNat - '0'.toNat))
    rw [takeDigits, if_pos (by rw [digits.1, hvalue, Bool.true_and, decide_eq_true_eq]; omega), hvalue,
      ih digits.2 fits, Nat.ofDigitChars_cons]

theorem head_toDigits {n : Nat} (h : n ≠ 0) : (Nat.toDigits 10 n).head? ≠ some '0' := by
  induction n using Nat.strongRecOn with
  | ind n ih =>
    by_cases hlt : n < 10
    · have hone : ∀ n < 10, n ≠ 0 → [n.digitChar].head? ≠ some '0' := by decide
      rw [Nat.toDigits_of_lt_base hlt]
      exact hone n hlt h
    · rw [Nat.toDigits_of_base_le (by decide) (by omega), List.head?_append_of_ne_nil _ Nat.toDigits_ne_nil]
      exact ih (n / 10) (by omega) (by omega)

theorem isDigit_toDigits (n : Nat) : ∀ d ∈ Nat.toDigits 10 n, d.isDigit :=
  fun _ hd => Nat.isDigit_of_mem_toDigits (by decide) (by decide) hd

/-- Digits that 64 bits hold, without a leading zero, are all in the significand. -/
theorem readUnsigned_digits (negative : Bool) {ds r : List Char} (filled : ds ≠ [])
    (digits : ∀ d ∈ ds, d.isDigit) (head : ds.head? ≠ some '0')
    (fits : Nat.ofDigitChars 10 ds 0 < UInt64.size) (hr : startsWithDigit r = false) :
    readUnsigned negative (ds ++ r) = readTail negative (Nat.ofDigitChars 10 ds 0) 0 r := by
  have happend := takeDigits_append hr 0 ds
  rw [takeDigits_all digits fits] at happend
  obtain ⟨d, ds, rfl⟩ := List.exists_cons_of_ne_nil filled
  have hzero : d ≠ '0' := by
    rintro rfl
    exact head rfl
  have hdrop : r.dropWhile Char.isDigit = r := by simpa using dropWhile_append hr []
  have htakeWhile : r.takeWhile Char.isDigit = [] := by simpa using takeWhile_append hr []
  rw [List.cons_append, readUnsigned]
  · rw [if_pos (digits d List.mem_cons_self)]
    rw [List.cons_append] at happend
    rw [happend]
    simp [hdrop, htakeWhile]
  · exact fun hd => hzero hd

/-- The digits of a positive number that 64 bits hold are its significand. -/
theorem readUnsigned_toDigits (negative : Bool) {n : Nat} (hpos : n ≠ 0) (hfits : n < UInt64.size)
    {r : List Char} (hr : startsWithDigit r = false) :
    readUnsigned negative (Nat.toDigits 10 n ++ r) = readTail negative n 0 r := by
  have hvalue : Nat.ofDigitChars 10 (Nat.toDigits 10 n) 0 = n :=
    Nat.ofDigitChars_toDigits (by decide) (by decide)
  have hread := readUnsigned_digits negative Nat.toDigits_ne_nil (isDigit_toDigits n)
    (head_toDigits hpos) (by rwa [hvalue]) hr
  rwa [hvalue] at hread

theorem readTail_stops {negative : Bool} {n : Nat} {r : List Char} (hr : Stops r) {m : Number}
    (hwhole : whole negative n = some m) : readTail negative n 0 r = .ok (m, r) := by
  have hhead {c : Char} {cs : List Char} (h : r = c :: cs) := (hr c (by rw [h]; rfl)).2
  rw [readTail, if_pos rfl, hwhole]
  · rintro cs rfl
    simpa using hhead rfl
  · rintro cs rfl
    simpa using hhead rfl
  · rintro cs rfl
    simpa using hhead rfl

theorem read_unsigned {cs : List Char} (h : startsWithDigit cs) : read cs = readUnsigned false cs := by
  rw [read]
  rintro ds rfl
  cases h

/-- An integer is read back from its digits. -/
theorem read_int {i : Int} (h : -0x8000000000000000 ≤ i ∧ i < 0x10000000000000000) {r : List Char}
    (hr : Stops r) : read ((Number.int i h).chars ++ r) = .ok (.int i h, r) := by
  have hdigit : startsWithDigit r = false := startsWithDigit_of_head fun c hc => (hr c hc).1
  have hofInt (j : Int) (hj : j = i) : ofInt? j = some (.int i h) := by
    subst hj
    rw [ofInt?, dif_pos h]
  rw [Number.chars]
  by_cases hneg : i < 0
  · rw [if_pos hneg, List.append_assoc, List.singleton_append, read,
      readUnsigned_toDigits true (by omega) (by simp [UInt64.size]; omega) hdigit]
    apply readTail_stops hr
    rw [whole, if_pos rfl, if_neg (by omega), hofInt _ (by omega)]
  · have hstart := startsWithDigit_digits Nat.toDigits_ne_nil (isDigit_toDigits i.natAbs) r
    rw [if_neg hneg, List.nil_append, read_unsigned hstart]
    by_cases hzero : i = 0
    · subst hzero
      have hchars : Nat.toDigits 10 (0 : Int).natAbs ++ r = '0' :: r := by simp
      rw [hchars, readUnsigned, hdigit]
      apply readTail_stops hr
      rw [whole, if_neg Bool.false_ne_true]
      exact hofInt _ rfl
    · rw [readUnsigned_toDigits false (by omega) (by simp [UInt64.size]; omega) hdigit]
      apply readTail_stops hr
      rw [whole, if_neg Bool.false_ne_true, hofInt _ (by omega)]

/-! Decimals -/

/-- What is read, if anything, does not depend on what stops the number. -/
def Uniform (f : List Char → Reading Number) : Prop :=
  ∃ x : Option Number, ∀ r, Stops r → (f r).toOption = x.map (·, r)

/-- The mark of an exponent, its sign and its digits, or nothing. -/
def Exponent (e : List Char) : Prop :=
  e = [] ∨ ∃ sign ds, sign ∈ ['+', '-'] ∧ ds ≠ [] ∧ (∀ d ∈ ds, d.isDigit) ∧ e = 'e' :: sign :: ds

/-- A point and digits, or nothing. -/
def Fraction (f : List Char) : Prop :=
  f = [] ∨ ∃ ds, ds ≠ [] ∧ (∀ d ∈ ds, d.isDigit) ∧ f = '.' :: ds

/-- Digits with a fraction and an exponent, if any. -/
def Numeral (cs : List Char) : Prop :=
  ∃ w f e, w ≠ [] ∧ (∀ d ∈ w, d.isDigit) ∧ Fraction f ∧ Exponent e ∧ cs = w ++ f ++ e

theorem startsWithDigit_of_stops {r : List Char} (hr : Stops r) : startsWithDigit r = false :=
  startsWithDigit_of_head fun c hc => (hr c hc).1

theorem startsWithDigit_exponent {e r : List Char} (he : Exponent e) (hr : Stops r) :
    startsWithDigit (e ++ r) = false := by
  rcases he with rfl | ⟨sign, ds, -, -, -, rfl⟩
  · exact startsWithDigit_of_stops hr
  · rfl

theorem dropWhile_digits {ds cs : List Char} (digits : ∀ d ∈ ds, d.isDigit)
    (h : startsWithDigit cs = false) : (ds ++ cs).dropWhile Char.isDigit = cs := by
  rw [dropWhile_append h, List.dropWhile_eq_nil_iff.mpr digits, List.nil_append]

theorem takeDigits_rest {ds : List Char} (digits : ∀ d ∈ ds, d.isDigit) (n : Nat) :
    ∀ d ∈ (takeDigits n ds).2, d.isDigit := by
  induction ds generalizing n with
  | nil => exact digits
  | cons d ds ih =>
    rw [takeDigits]
    split
    · exact ih (List.forall_mem_cons.mp digits).2 _
    · exact digits

/-- Digits of an exponent are left only where it is too large. -/
theorem takeExponent_rest {ds : List Char} (digits : ∀ d ∈ ds, d.isDigit) (n : Nat) :
    (∀ d ∈ (takeExponent n ds).2, d.isDigit) ∧
      ((takeExponent n ds).1 < 0x80000000 → (takeExponent n ds).2 = []) := by
  induction ds generalizing n with
  | nil => exact ⟨digits, fun _ => rfl⟩
  | cons d ds ih =>
    have hd := (List.forall_mem_cons.mp digits).1
    rw [takeExponent]
    split
    · exact ih (List.forall_mem_cons.mp digits).2 _
    · rename_i hlarge
      rw [hd, Bool.true_and, decide_eq_true_eq] at hlarge
      constructor
      · exact digits
      · intro (hsmall : n < 0x80000000)
        exact absurd hsmall hlarge

section uniform
variable (negative : Bool) (significand : Nat) (exponent : Int)

theorem uniform_scaled : Uniform (scaled negative significand exponent) := by
  unfold scaled
  generalize Double.ofParts negative significand exponent = d
  refine ⟨d.map .double, fun r _ => ?_⟩
  cases d <;> rfl

/-- The digits of an exponent are all read, up to those with which it is out of range. -/
theorem readExponent_digits {sign : Char} {ds r : List Char} (hsign : sign ∈ ['+', '-'])
    (hds : ds ≠ []) (digits : ∀ d ∈ ds, d.isDigit) (hr : Stops r) :
    readExponent negative significand exponent (sign :: (ds ++ r)) =
      if (takeExponent 0 ds).1 < 0x80000000 then
        scaled negative significand
          (if sign = '-' then exponent - (takeExponent 0 ds).1
            else exponent + (takeExponent 0 ds).1) r
      else if sign = '-' ∨ significand = 0 then
        .ok (.double (if negative then .negZero else .zero), r)
      else stopAt .range ((takeExponent 0 ds).2 ++ r) := by
  obtain ⟨hrest, hsmall⟩ := takeExponent_rest digits 0
  have happend := takeExponent_append (startsWithDigit_of_stops hr) 0 ds
  have hdrop := dropWhile_digits hrest (startsWithDigit_of_stops hr)
  obtain ⟨d, ds, rfl⟩ := List.exists_cons_of_ne_nil hds
  have hd : d.isDigit := digits d List.mem_cons_self
  rw [List.cons_append] at happend
  generalize takeExponent 0 (d :: ds) = taken at hrest hsmall happend hdrop ⊢
  have hscaled (x : Int) (h : taken.1 < 0x80000000) :
      scaled negative significand x (taken.2 ++ r) = scaled negative significand x r := by
    rw [hsmall h, List.nil_append]
  rcases List.mem_pair.mp hsign with rfl | rfl
  · simp only [readExponent, List.cons_append, hd, happend, hdrop]
    split <;> simp_all
  · simp only [readExponent, List.cons_append, hd, happend, hdrop]
    split <;> simp_all

theorem uniform_readExponent {sign : Char} {ds : List Char} (hsign : sign ∈ ['+', '-'])
    (hds : ds ≠ []) (digits : ∀ d ∈ ds, d.isDigit) :
    Uniform fun r => readExponent negative significand exponent (sign :: (ds ++ r)) := by
  have hread (r : List Char) (hr : Stops r) :=
    readExponent_digits negative significand exponent hsign hds digits hr
  by_cases hlt : (takeExponent 0 ds).1 < 0x80000000
  · obtain ⟨x, hx⟩ := uniform_scaled negative significand
      (if sign = '-' then exponent - (takeExponent 0 ds).1 else exponent + (takeExponent 0 ds).1)
    refine ⟨x, fun r hr => ?_⟩
    dsimp only
    rw [hread r hr, if_pos hlt, hx r hr]
  by_cases hzero : sign = '-' ∨ significand = 0
  · refine ⟨some (.double (if negative then .negZero else .zero)), fun r hr => ?_⟩
    dsimp only
    rw [hread r hr, if_neg hlt, if_pos hzero]
    rfl
  · refine ⟨none, fun r hr => ?_⟩
    dsimp only
    rw [hread r hr, if_neg hlt, if_neg hzero]
    rfl

theorem readScale_stops {r : List Char} (hr : Stops r) :
    readScale negative significand exponent r = scaled negative significand exponent r := by
  have hmark {c : Char} {cs : List Char} (h : r = c :: cs) := (hr c (by rw [h]; rfl)).2
  unfold readScale
  split
  · simpa using hmark rfl
  · simpa using hmark rfl
  · rfl

theorem uniform_readScale {e : List Char} (he : Exponent e) :
    Uniform fun r => readScale negative significand exponent (e ++ r) := by
  rcases he with rfl | ⟨sign, ds, hsign, hds, digits, rfl⟩
  · obtain ⟨x, hx⟩ := uniform_scaled negative significand exponent
    refine ⟨x, fun r hr => ?_⟩
    simp only [List.nil_append, readScale_stops negative significand exponent hr, hx r hr]
  · exact uniform_readExponent negative significand exponent hsign hds digits

theorem uniform_readFraction {ds e : List Char} (hds : ds ≠ []) (digits : ∀ d ∈ ds, d.isDigit)
    (he : Exponent e) : Uniform fun r => readFraction negative significand exponent (ds ++ (e ++ r)) := by
  have hrest := takeDigits_rest digits significand
  obtain ⟨x, hx⟩ := uniform_readScale negative (takeDigits significand ds).1
    (exponent - (ds.length - (takeDigits significand ds).2.length : Nat)) he
  refine ⟨x, fun r hr => ?_⟩
  have hstart := startsWithDigit_exponent he hr
  have htaken : (ds ++ (e ++ r)).length - ((takeDigits significand ds).2 ++ (e ++ r)).length =
      ds.length - (takeDigits significand ds).2.length := by
    simp only [List.length_append]
    omega
  dsimp only
  rw [readFraction, if_pos (startsWithDigit_digits hds digits _), takeDigits_append hstart]
  dsimp only
  rw [htaken, dropWhile_digits hrest hstart, hx r hr]

theorem uniform_readTail {f e : List Char} (dropped : Nat) (hf : Fraction f) (he : Exponent e) :
    Uniform fun r => readTail negative significand dropped (f ++ (e ++ r)) := by
  rcases hf with rfl | ⟨ds, hds, digits, rfl⟩
  · rcases he with rfl | ⟨sign, es, hsign, hes, digits, rfl⟩
    · by_cases hdropped : dropped = 0
      · refine ⟨whole negative significand, fun r hr => ?_⟩
        have hmark {c : Char} {cs : List Char} (h : r = c :: cs) := (hr c (by rw [h]; rfl)).2
        dsimp only [List.nil_append]
        unfold readTail
        split
        · simpa using hmark rfl
        · simpa using hmark rfl
        · simpa using hmark rfl
        · rw [if_pos hdropped]
          cases whole negative significand <;> rfl
      · obtain ⟨x, hx⟩ := uniform_scaled negative significand dropped
        refine ⟨x, fun r hr => ?_⟩
        have hmark {c : Char} {cs : List Char} (h : r = c :: cs) := (hr c (by rw [h]; rfl)).2
        dsimp only [List.nil_append]
        unfold readTail
        split
        · simpa using hmark rfl
        · simpa using hmark rfl
        · simpa using hmark rfl
        · rw [if_neg hdropped, hx r hr]
    · exact uniform_readExponent negative significand dropped hsign hes digits
  · exact uniform_readFraction negative significand dropped hds digits he

end uniform

theorem startsWithDigit_tail {f e r : List Char} (hf : Fraction f) (he : Exponent e) (hr : Stops r) :
    startsWithDigit (f ++ (e ++ r)) = false := by
  rcases hf with rfl | ⟨ds, -, -, rfl⟩
  · exact startsWithDigit_exponent (e := e) he hr
  · rfl

theorem uniform_readUnsigned {cs : List Char} (h : Numeral cs) (negative : Bool) :
    Uniform fun r => readUnsigned negative (cs ++ r) := by
  obtain ⟨w, f, e, hw, digits, hf, he, rfl⟩ := h
  obtain ⟨c, w, rfl⟩ := List.exists_cons_of_ne_nil hw
  have hc : c.isDigit := digits c List.mem_cons_self
  by_cases hzero : c = '0'
  · subst hzero
    cases w with
    | nil =>
      obtain ⟨x, hx⟩ := uniform_readTail negative 0 0 hf he
      refine ⟨x, fun r hr => ?_⟩
      rw [← hx r hr]
      simp only [List.cons_append, List.nil_append, List.append_assoc, readUnsigned,
        startsWithDigit_tail hf he hr, Bool.false_eq_true, if_false]
    | cons d w =>
      have hd : d.isDigit := digits d (by simp)
      refine ⟨none, fun r hr => ?_⟩
      simp only [List.cons_append, readUnsigned, startsWithDigit, hd, if_true]
      rfl
  · have hrest := takeDigits_rest digits 0
    obtain ⟨x, hx⟩ := uniform_readTail negative (takeDigits 0 (c :: w)).1
      (takeDigits 0 (c :: w)).2.length hf he
    refine ⟨x, fun r hr => ?_⟩
    have hstart := startsWithDigit_tail hf he hr
    have happend := takeDigits_append hstart 0 (c :: w)
    have hwhile : ((takeDigits 0 (c :: w)).2 ++ (f ++ (e ++ r))).takeWhile Char.isDigit =
        (takeDigits 0 (c :: w)).2 := by
      rw [takeWhile_append hstart, List.takeWhile_eq_self_iff.mpr hrest]
    rw [← hx r hr]
    dsimp only
    rw [List.append_assoc, List.append_assoc, List.cons_append, readUnsigned, if_pos hc]
    · rw [List.cons_append] at happend
      rw [happend]
      dsimp only
      rw [hwhile, dropWhile_digits hrest hstart]
    · exact fun h => hzero h

/-- What is read of a decimal, with or without a sign, does not depend on what stops it. -/
theorem uniform_read {cs : List Char} (h : Numeral cs) :
    Uniform (fun r => read (cs ++ r)) ∧ Uniform fun r => read ('-' :: cs ++ r) := by
  constructor
  · obtain ⟨x, hx⟩ := uniform_readUnsigned h false
    refine ⟨x, fun r hr => ?_⟩
    obtain ⟨w, f, e, hw, digits, -, -, rfl⟩ := h
    have hstart := startsWithDigit_digits hw digits (f ++ (e ++ r))
    rw [← List.append_assoc, ← List.append_assoc] at hstart
    rw [← hx r hr]
    dsimp only
    rw [read_unsigned hstart]
  · exact uniform_readUnsigned h true

theorem digits_zeros (n : Nat) : ∀ d ∈ Double.zeros n, d.isDigit := by
  intro d hd
  rw [List.eq_of_mem_replicate hd]
  rfl

/-- A decimal is laid out as a numeral. -/
theorem numeral_layout (d : Double.Decimal) : Numeral d.layout := by
  have digits := isDigit_toDigits d.coefficient
  have hdigits : Nat.toDigits 10 d.coefficient ≠ [] := Nat.toDigits_ne_nil
  unfold Double.Decimal.layout
  generalize Nat.toDigits 10 d.coefficient = ds at digits hdigits
  dsimp only
  split
  · generalize d.exponent + ds.length - 1 = n
    have hexponent : Exponent ('e' :: (if n < 0 then '-' else '+') :: Nat.toDigits 10 n.natAbs) := by
      refine .inr ⟨_, _, ?_, Nat.toDigits_ne_nil, isDigit_toDigits _, rfl⟩
      split <;> decide
    match ds with
    | [] => exact absurd rfl hdigits
    | [c] => exact ⟨[c], [], _, by simp, digits, .inl rfl, hexponent, by simp⟩
    | c :: c' :: rest =>
      rw [List.forall_mem_cons] at digits
      exact ⟨[c], '.' :: c' :: rest, _, by simp, by simpa using digits.1,
        .inr ⟨_, by simp, digits.2, rfl⟩, hexponent, by simp⟩
  · split
    · generalize (d.exponent + ds.length - 1).natAbs - 1 = n
      refine ⟨['0'], '.' :: (Double.zeros n ++ ds), [], by simp, List.forall_mem_singleton.mpr (by decide),
        .inr ⟨_, by simp [hdigits], ?_, rfl⟩, .inl rfl, by simp⟩
      intro c hc
      rcases List.mem_append.mp hc with hc | hc
      · exact digits_zeros n c hc
      · exact digits c hc
    · generalize (d.exponent + ds.length - 1).natAbs = n
      refine ⟨ds.take (n + 1) ++ Double.zeros (n + 1 - ds.length),
        '.' :: if (ds.drop (n + 1)).isEmpty then ['0'] else ds.drop (n + 1), [], ?_, ?_,
        .inr ⟨_, ?_, ?_, rfl⟩, .inl rfl, by simp⟩
      · simp [hdigits]
      · intro c hc
        rcases List.mem_append.mp hc with hc | hc
        · exact digits c (List.mem_of_mem_take hc)
        · exact digits_zeros _ c hc
      · split
        · simp
        · rename_i h
          simpa using h
      · intro c hc
        split at hc
        · rw [List.mem_singleton.mp hc]
          rfl
        · exact digits c (List.mem_of_mem_drop hc)

/-- Without its sign, the text of a number is a numeral. -/
theorem numeral_chars (n : Number) :
    ∃ (sign : Bool) (cs : List Char), Numeral cs ∧ n.chars = if sign then '-' :: cs else cs := by
  cases n with
  | int i h =>
    refine ⟨decide (i < 0), Nat.toDigits 10 i.natAbs,
      ⟨_, [], [], Nat.toDigits_ne_nil, isDigit_toDigits i.natAbs, .inl rfl, .inl rfl, by simp⟩, ?_⟩
    by_cases hneg : i < 0 <;> simp [Number.chars, hneg]
  | double d =>
    refine ⟨d.negative, _, ?_, rfl⟩
    have hzero : ∀ c ∈ ['0'], c.isDigit = true := List.forall_mem_singleton.mpr (by decide)
    split
    · exact ⟨['0'], ['.', '0'], [], by simp, hzero, .inr ⟨['0'], by simp, hzero, rfl⟩,
        .inl rfl, rfl⟩
    · exact numeral_layout d.shortest

/-! Numbers -/

/-- What the text of a number is read as. -/
def reread (n : Number) : Option Number := (read n.chars).toOption.map Prod.fst

theorem reread_int {i : Int} (h : -0x8000000000000000 ≤ i ∧ i < 0x10000000000000000) :
    (Number.int i h).reread = some (.int i h) := by
  have hread := read_int h Stops.nil
  rw [List.append_nil] at hread
  rw [reread, hread]
  rfl

/-- The number is read as its neighbour: `6` and `10 ^ 30` are rounded before their product is. -/
theorem reread_six_exp_thirty :
    (Number.double ⟨false, 5067375051682638255, by decide⟩).reread =
      some (.double ⟨false, 5067375051682638256, by decide⟩) := by
  have hchars : (Number.double ⟨false, 5067375051682638255, by decide⟩).chars =
      ['6', 'e', '+', '3', '0'] := by decide +kernel
  have hparts : Double.ofParts false 6 30 = some ⟨false, 5067375051682638256, by decide⟩ := by
    decide +kernel
  have hdigits : takeDigits 0 ['6', 'e', '+', '3', '0'] = (6, ['e', '+', '3', '0']) := by decide
  have hexponent : takeExponent 0 ['3', '0'] = (30, []) := by decide
  have htail : read ['6', 'e', '+', '3', '0'] =
      readExponent false 6 0 ['+', '3', '0'] := by
    simp [read, readUnsigned, hdigits, readTail, Char.isDigit]
  have hread : readExponent false 6 0 ['+', '3', '0'] = scaled false 6 30 [] := by
    simp [readExponent, hexponent, Char.isDigit]
  rw [reread, hchars, htail, hread, scaled, hparts]
  rfl

/-- A number is read from its text and no further. -/
theorem read_chars (n : Number) {r : List Char} (hr : Stops r) :
    (read (n.chars ++ r)).toOption = n.reread.map (·, r) := by
  have huniform : Uniform fun r => read (n.chars ++ r) := by
    obtain ⟨sign, cs, hcs, hchars⟩ := numeral_chars n
    rw [hchars]
    cases sign with
    | false => exact (uniform_read hcs).1
    | true => exact (uniform_read hcs).2
  obtain ⟨x, hx⟩ := huniform
  have hnil := hx [] .nil
  dsimp only at hx hnil
  rw [List.append_nil] at hnil
  rw [hx r hr, reread, hnil, Option.map_map]
  cases x <;> rfl

theorem ascii_of_isDigit {c : Char} (h : c.isDigit) : c.toNat < 0x80 := by
  simp only [Char.isDigit, Bool.and_eq_true, decide_eq_true_eq, UInt32.le_iff_toNat_le] at h
  exact Nat.lt_of_le_of_lt h.2 (by decide)

theorem Numeral.ascii {cs : List Char} (h : Numeral cs) : ∀ c ∈ cs, c.toNat < 0x80 := by
  obtain ⟨w, f, e, -, digits, hf, he, rfl⟩ := h
  intro c hc
  rw [List.append_assoc, List.mem_append, List.mem_append] at hc
  rcases hc with hc | hc | hc
  · exact ascii_of_isDigit (digits c hc)
  · rcases hf with rfl | ⟨ds, -, digits, rfl⟩
    · cases hc
    · rcases List.mem_cons.mp hc with rfl | hc
      · decide
      · exact ascii_of_isDigit (digits c hc)
  · rcases he with rfl | ⟨sign, ds, hsign, -, digits, rfl⟩
    · cases hc
    · have hmark : ∀ s ∈ ['+', '-'], s.toNat < 0x80 :=
        List.forall_mem_cons.mpr ⟨by decide, List.forall_mem_singleton.mpr (by decide)⟩
      rcases List.mem_cons.mp hc with rfl | hc
      · decide
      rcases List.mem_cons.mp hc with rfl | hc
      · exact hmark c hsign
      · exact ascii_of_isDigit (digits c hc)

/-- The text of a number begins with a sign or a digit, and all of it is ASCII. -/
theorem chars_shape (n : Number) :
    (∃ c cs, n.chars = c :: cs ∧ (c = '-' ∨ c.isDigit)) ∧ ∀ c ∈ n.chars, c.toNat < 0x80 := by
  obtain ⟨sign, cs, hcs, hchars⟩ := numeral_chars n
  have hascii := hcs.ascii
  obtain ⟨w, f, e, hw, digits, -, -, rfl⟩ := hcs
  obtain ⟨c, w, rfl⟩ := List.exists_cons_of_ne_nil hw
  have hc : c.isDigit := digits c List.mem_cons_self
  rw [hchars]
  cases sign with
  | false => exact ⟨⟨c, w ++ f ++ e, by simp, .inr hc⟩, hascii⟩
  | true => exact ⟨⟨'-', c :: w ++ f ++ e, rfl, .inl rfl⟩, by simpa using hascii⟩

/-! Texts -/

/-- The text of a double has a point or an exponent. -/
theorem mark_mem_layout (d : Double.Decimal) : '.' ∈ d.layout ∨ 'e' ∈ d.layout := by
  unfold Double.Decimal.layout
  dsimp only
  split
  · simp
  · split <;> simp

theorem mark_mem_chars (d : Double) : '.' ∈ (Number.double d).chars ∨ 'e' ∈ (Number.double d).chars := by
  have hlayout := mark_mem_layout d.shortest
  unfold chars Double.chars
  dsimp only
  cases d.negative <;> cases d.isZero <;> simp [hlayout]

theorem mark_notMem_chars {i : Int} (h : -0x8000000000000000 ≤ i ∧ i < 0x10000000000000000) :
    '.' ∉ (Number.int i h).chars ∧ 'e' ∉ (Number.int i h).chars := by
  have digits := isDigit_toDigits i.natAbs
  have hmark {c : Char} (hc : c.isDigit = false) (hsign : c ≠ '-') : c ∉ (Number.int i h).chars := by
    intro hmem
    have hdigit : c ∈ Nat.toDigits 10 i.natAbs := by
      by_cases hneg : i < 0 <;> simpa [chars, hneg, hsign] using hmem
    rw [digits c hdigit] at hc
    cases hc
  exact ⟨hmark rfl (by decide), hmark rfl (by decide)⟩

/-- The text of an integer is that of no other number. -/
theorem eq_of_text_eq {n : Number} {i : Int} {h : -0x8000000000000000 ≤ i ∧ i < 0x10000000000000000}
    (heq : n.text = (Number.int i h).text) : n = .int i h := by
  have hchars : n.chars = (Number.int i h).chars := String.ofList_injective heq
  cases n with
  | int j hj =>
    have hread := reread_int hj
    rw [reread, hchars, ← reread, reread_int h] at hread
    exact (Option.some.inj hread).symm
  | double d =>
    obtain ⟨hpoint, hexponent⟩ := mark_notMem_chars h
    rw [← hchars] at hpoint hexponent
    exact absurd (mark_mem_chars d) (not_or.mpr ⟨hpoint, hexponent⟩)

end RecordGraph.Number
