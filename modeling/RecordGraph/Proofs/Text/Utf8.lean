import Mathlib.Data.List.Basic
import RecordGraph.Text.Utf8

/-!
The bytes of a text are well formed and stand for it. Bytes given as characters are the bytes again.
-/
namespace RecordGraph.Text.Utf8

theorem toNat_valid (c : Char) : c.toNat < 0xD800 ∨ 0xDFFF < c.toNat ∧ c.toNat < 0x110000 := by
  rcases c.valid with h | ⟨h, h'⟩
  · exact .inl h
  · exact .inr ⟨h, h'⟩

theorem toNat_ofNat_of_lt {n : Nat} (h : n < 256) : (UInt8.ofNat n).toNat = n := by
  rw [UInt8.toNat_ofNat', Nat.mod_eq_of_lt h]

/-! Lead bytes and the bytes that follow them -/

section lead
variable {b : UInt8}

theorem lead_two (h : 0xC2 ≤ b.toNat ∧ b.toNat ≤ 0xDF) : lead b = some (1, 0x80, 0xBF) := by
  rw [lead, if_pos]
  simpa [UInt8.le_iff_toNat_le] using h

/-- Of three bytes the first two leave out what two bytes or a surrogate would take. -/
theorem lead_three (h : 0xE0 ≤ b.toNat ∧ b.toNat ≤ 0xEF) :
    lead b = some (2, if b.toNat = 0xE0 then 0xA0 else 0x80,
      if b.toNat = 0xED then 0x9F else 0xBF) := by
  simp only [lead, UInt8.le_iff_toNat_le, ← UInt8.toNat_inj, Bool.and_eq_true, decide_eq_true_eq,
    UInt8.reduceToNat]
  split_ifs <;> first | rfl | omega

/-- Of four bytes the first two leave out what three bytes take and what no character has. -/
theorem lead_four (h : 0xF0 ≤ b.toNat ∧ b.toNat ≤ 0xF4) :
    lead b = some (3, if b.toNat = 0xF0 then 0x90 else 0x80,
      if b.toNat = 0xF4 then 0x8F else 0xBF) := by
  simp only [lead, UInt8.le_iff_toNat_le, ← UInt8.toNat_inj, Bool.and_eq_true, decide_eq_true_eq,
    UInt8.reduceToNat]
  split_ifs <;> first | rfl | omega

theorem next_one {bs : List UInt8} (h : b.toNat < 0x80) :
    next b bs = (some (Char.ofNat b.toNat), bs) := by
  rw [next, if_pos]
  simpa [UInt8.lt_iff_toNat_lt] using h

theorem next_more {bs : List UInt8} {follow : Nat} {low high : UInt8} (h : 0x80 ≤ b.toNat)
    (hlead : lead b = some (follow, low, high)) :
    next b bs = finish (leadBits b follow) low high follow bs := by
  rw [next, if_neg, hlead]
  simpa [UInt8.lt_iff_toNat_lt] using h

end lead

/-- A byte that follows carries six bits. -/
theorem finish_tail {acc owed bits : Nat} {low high : UInt8} {bs : List UInt8} (hbits : bits < 64)
    (hlow : low.toNat ≤ 0x80 + bits) (hhigh : 0x80 + bits ≤ high.toNat) :
    finish acc low high (owed + 1) (UInt8.ofNat (0x80 + bits) :: bs) =
      finish (acc * 64 + bits) 0x80 0xBF owed bs := by
  have htail := toNat_ofNat_of_lt (show 0x80 + bits < 256 by omega)
  rw [finish, if_pos, htail]
  · rw [show (0x80 + bits) % 64 = bits by omega]
  · simp only [UInt8.le_iff_toNat_le, htail, decide_eq_true_eq, Bool.and_eq_true]
    exact ⟨hlow, hhigh⟩

/-- A character is read back from its bytes, whatever follows them. -/
theorem next_encodeChar (c : Char) (bs : List UInt8) :
    ∃ b rest, encodeChar c ++ bs = b :: rest ∧ next b rest = (some c, bs) := by
  have hvalid := toNat_valid c
  have hchar : Char.ofNat c.toNat = c := Char.ofNat_toNat c
  have hdone {acc : Nat} (low high : UInt8) (h : acc = c.toNat) :
      finish acc low high 0 bs = (some c, bs) := by rw [finish, h, hchar]
  unfold encodeChar
  generalize c.toNat = n at hvalid hchar hdone ⊢
  simp only [Nat.shiftRight_eq_div_pow]
  by_cases h1 : n < 0x80
  · have hlead := toNat_ofNat_of_lt (show n < 256 by omega)
    refine ⟨UInt8.ofNat n, bs, by rw [if_pos h1]; rfl, ?_⟩
    rw [next_one (by omega), hlead, hchar]
  rw [if_neg h1]
  by_cases h2 : n < 0x800
  · have hlead := toNat_ofNat_of_lt (show 0xC0 + n / 64 < 256 by omega)
    refine ⟨_, _, by rw [if_pos h2, List.cons_append, List.cons_append, List.nil_append], ?_⟩
    rw [next_more (by omega) (lead_two (by omega)), leadBits, hlead,
      finish_tail (by omega) (by simp) (by simp; omega)]
    exact hdone _ _ (by simp; omega)
  rw [if_neg h2]
  by_cases h3 : n < 0x10000
  · have hlead := toNat_ofNat_of_lt (show 0xE0 + n / 2 ^ 12 < 256 by omega)
    refine ⟨_, _, by simp only [if_pos h3, List.cons_append, List.nil_append]; rfl, ?_⟩
    rw [next_more (by omega) (lead_three (by omega)), leadBits, hlead,
      finish_tail (by omega) (by split_ifs <;> simp; omega) (by split_ifs <;> simp <;> omega),
      finish_tail (by omega) (by simp) (by simp; omega)]
    exact hdone _ _ (by simp; omega)
  · have hlead := toNat_ofNat_of_lt (show 0xF0 + n / 2 ^ 18 < 256 by omega)
    refine ⟨_, _, by simp only [if_neg h3, List.cons_append, List.nil_append]; rfl, ?_⟩
    rw [next_more (by omega) (lead_four (by omega)), leadBits, hlead,
      finish_tail (by omega) (by split_ifs <;> simp; omega) (by split_ifs <;> simp <;> omega),
      finish_tail (by omega) (by simp) (by simp; omega),
      finish_tail (by omega) (by simp) (by simp; omega)]
    exact hdone _ _ (by simp; omega)

theorem units_encodeChar (c : Char) (bs : List UInt8) :
    units (encodeChar c ++ bs) = some c :: units bs := by
  obtain ⟨b, rest, happend, hnext⟩ := next_encodeChar c bs
  rw [happend, units, hnext]

theorem units_encode (s : String) : units (encode s) = s.toList.map some := by
  unfold encode
  induction s.toList with
  | nil => rw [List.flatMap_nil, units, List.map_nil]
  | cons c cs ih => rw [List.flatMap_cons, units_encodeChar, ih, List.map_cons]

/-- A text is read back from its bytes. -/
theorem decode_encode (s : String) : decode (encode s) = some s := by
  have hall (cs : List Char) : (cs.map some).mapM id = some cs := by
    induction cs with
    | nil => rfl
    | cons c cs ih => simp [ih]
  rw [decode, units_encode, hall, Option.map_some, String.ofList_toList]

theorem decodeLossy_encode (s : String) : decodeLossy (encode s) = s := by
  rw [decodeLossy, units_encode, List.map_map]
  simp [Function.comp_def]

/-! Bytes as characters -/

theorem toNat_ofNat_char {n : Nat} (h : n < 0xD800) : (Char.ofNat n).toNat = n := by
  rw [Char.ofNat, dif_pos (.inl h)]
  rfl

theorem ofOctets_octets (bs : List UInt8) : ofOctets (octets bs) = bs := by
  rw [ofOctets, octets, List.map_map]
  refine List.map_id'' (fun b => ?_) bs
  have hb : b.toNat < 256 := b.toNat_lt
  rw [Function.comp_apply, toNat_ofNat_char (by omega), UInt8.ofNat_toNat]

end RecordGraph.Text.Utf8
