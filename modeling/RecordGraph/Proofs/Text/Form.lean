import RecordGraph.Proofs.Text.Utf8
import RecordGraph.Text.Blank
import RecordGraph.Text.Form

/-!
Pairs are read back from their form-encoded text: no encoded name or value holds a separator, and each
byte is read back from how it is written.
-/
namespace RecordGraph.Text

namespace Utf8

/-- Bytes that are all ASCII are the bytes of their characters. -/
theorem encode_octets {bs : List UInt8} (h : ∀ b ∈ bs, b.toNat < 0x80) :
    encode (String.ofList (octets bs)) = bs := by
  rw [encode, String.toList_ofList, octets, List.flatMap_map]
  induction bs with
  | nil => rfl
  | cons b bs ih =>
    rw [List.forall_mem_cons] at h
    have hb : encodeChar (Char.ofNat b.toNat) = [b] := by
      rw [encodeChar, toNat_ofNat_char (by omega)]
      simp [h.1]
    rw [List.flatMap_cons, hb, ih h.2, List.singleton_append]

end Utf8

namespace Form

/-- The bytes of an encoded name or value. -/
def encodeBytes (s : String) : List UInt8 := (Utf8.encode s).flatMap encodeByte

theorem encodeText_eq (s : String) : encodeText s = Utf8.octets (encodeBytes s) := rfl

theorem hexValue_hexDigit : ∀ n < 16, hexValue (hexDigit n) = some n := by decide

theorem hexDigit_plain : ∀ n < 16, (hexDigit n).toNat < 0x80 ∧ hexDigit n ≠ 38 ∧ hexDigit n ≠ 43 ∧
    hexDigit n ≠ 61 := by decide

theorem plain_of_isPlain {b : UInt8} (h : isPlain b) :
    b.toNat < 0x80 ∧ b ≠ 37 ∧ b ≠ 38 ∧ b ≠ 43 ∧ b ≠ 61 := by
  simp only [isPlain, Bool.or_eq_true, Bool.and_eq_true, decide_eq_true_eq, beq_iff_eq] at h
  refine ⟨by omega, ?_, ?_, ?_, ?_⟩ <;> rintro rfl <;> simp at h

/-- What a byte is written as: ASCII, and neither separator. -/
theorem mem_encodeByte {b x : UInt8} (h : x ∈ encodeByte b) : x.toNat < 0x80 ∧ x ≠ 38 ∧ x ≠ 61 := by
  have hb : b.toNat < 256 := b.toNat_lt
  unfold encodeByte at h
  split at h
  · rename_i hplain
    obtain ⟨hascii, -, hand, -, hequals⟩ := plain_of_isPlain hplain
    rw [List.mem_singleton.mp h]
    exact ⟨hascii, hand, hequals⟩
  split at h
  · rw [List.mem_singleton.mp h]
    decide
  · obtain ⟨hascii, hand, -, hequals⟩ := hexDigit_plain (b.toNat / 16) (by omega)
    obtain ⟨hascii', hand', -, hequals'⟩ := hexDigit_plain (b.toNat % 16) (by omega)
    simp only [List.mem_cons, List.not_mem_nil, or_false] at h
    rcases h with rfl | rfl | rfl
    · decide
    · exact ⟨hascii, hand, hequals⟩
    · exact ⟨hascii', hand', hequals'⟩

theorem percentDecode_cons {b : UInt8} (h : b ≠ 37) (bs : List UInt8) :
    percentDecode (b :: bs) = b :: percentDecode bs := by
  rw [percentDecode]
  intro _ _ _ hb
  exact absurd hb h

/-- A written byte is read back, whatever follows it. -/
theorem percentDecode_encodeByte (b : UInt8) (bs : List UInt8) :
    percentDecode ((encodeByte b).map (fun b => if b = 43 then 32 else b) ++ bs) =
      b :: percentDecode bs := by
  have hb : b.toNat < 256 := b.toNat_lt
  unfold encodeByte
  split
  · rename_i hplain
    obtain ⟨-, hpercent, -, hplus, -⟩ := plain_of_isPlain hplain
    simp only [List.map_cons, List.map_nil, if_neg hplus, List.cons_append, List.nil_append,
      percentDecode_cons hpercent]
  split
  · rename_i hspace
    rw [hspace]
    rfl
  · have hhigh := hexDigit_plain (b.toNat / 16) (by omega)
    have hlow := hexDigit_plain (b.toNat % 16) (by omega)
    have hvalue : UInt8.ofNat (b.toNat / 16 * 16 + b.toNat % 16) = b := by
      rw [Nat.div_add_mod', UInt8.ofNat_toNat]
    simp only [List.map_cons, List.map_nil, List.cons_append, List.nil_append,
      if_neg hhigh.2.2.1, if_neg hlow.2.2.1, if_neg (show ¬(37 : UInt8) = 43 by decide)]
    rw [percentDecode, hexValue_hexDigit _ (by omega), hexValue_hexDigit _ (by omega)]
    dsimp only
    rw [hvalue]

theorem decodeBytes_encodeBytes (s : String) : decodeBytes (encodeBytes s) = s := by
  have hbytes (bs : List UInt8) :
      percentDecode ((bs.flatMap encodeByte).map fun b => if b = 43 then 32 else b) = bs := by
    induction bs with
    | nil => rfl
    | cons b bs ih =>
      rw [List.flatMap_cons, List.map_append, percentDecode_encodeByte, ih]
  rw [decodeBytes, encodeBytes, hbytes, Utf8.decodeLossy_encode]

theorem mem_encodeBytes {s : String} {x : UInt8} (h : x ∈ encodeBytes s) :
    x.toNat < 0x80 ∧ x ≠ 38 ∧ x ≠ 61 := by
  obtain ⟨b, -, hx⟩ := List.mem_flatMap.mp h
  exact mem_encodeByte hx

/-- The bytes of an encoded pair. -/
def pairBytes (p : String × String) : List UInt8 := encodeBytes p.1 ++ 61 :: encodeBytes p.2

theorem decodePair_pairBytes (p : String × String) : decodePair (pairBytes p) = p := by
  have hname : ∀ x ∈ encodeBytes p.1, (x != 61) = true := by
    intro x hx
    simpa using (mem_encodeBytes hx).2.2
  have hend : ∀ bs, ((61 : UInt8) :: bs).takeWhile (· != 61) = [] ∧
      ((61 : UInt8) :: bs).dropWhile (· != 61) = 61 :: bs := by
    intro bs
    simp
  rw [decodePair, pairBytes, List.takeWhile_append_of_pos hname, List.dropWhile_append_of_pos hname,
    (hend _).1, (hend _).2, List.append_nil, List.drop_one, List.tail_cons,
    decodeBytes_encodeBytes, decodeBytes_encodeBytes]

/-- The bytes of encoded pairs. -/
def pairsBytes : List (String × String) → List UInt8
  | [] => []
  | [p] => pairBytes p
  | p :: ps => pairBytes p ++ 38 :: pairsBytes ps

theorem encode_eq (ps : List (String × String)) : encode ps = Utf8.octets (pairsBytes ps) := by
  have hpair (p : String × String) : encodePair p = Utf8.octets (pairBytes p) := by
    simp [encodePair, pairBytes, encodeText_eq, Utf8.octets]
  induction ps with
  | nil => rfl
  | cons p ps ih =>
    cases ps with
    | nil => exact hpair p
    | cons p' ps =>
      rw [encode, pairsBytes, ih, hpair]
      · simp [Utf8.octets]
      · exact fun h => by cases h
      · exact fun h => by cases h

theorem mem_pairBytes {p : String × String} {x : UInt8} (h : x ∈ pairBytes p) :
    x = 61 ∨ ∃ s, x ∈ encodeBytes s := by
  rcases List.mem_append.mp h with h | h
  · exact .inr ⟨p.1, h⟩
  · exact (List.mem_cons.mp h).imp_right fun h => ⟨p.2, h⟩

theorem mem_pairsBytes {ps : List (String × String)} {x : UInt8} (h : x ∈ pairsBytes ps) :
    x = 38 ∨ x = 61 ∨ ∃ s, x ∈ encodeBytes s := by
  fun_induction pairsBytes ps with
  | case1 => cases h
  | case2 p => exact .inr (mem_pairBytes h)
  | case3 p ps _ ih =>
    rcases List.mem_append.mp h with h | h
    · exact .inr (mem_pairBytes h)
    · exact (List.mem_cons.mp h).elim .inl ih

theorem ascii_pairsBytes {ps : List (String × String)} {x : UInt8} (h : x ∈ pairsBytes ps) :
    x.toNat < 0x80 := by
  rcases mem_pairsBytes h with rfl | rfl | ⟨s, h⟩
  · decide
  · decide
  · exact (mem_encodeBytes h).1

theorem cutBytes_append {sep : UInt8} {bs : List UInt8} (h : ∀ b ∈ bs, b ≠ sep) :
    cutBytes sep bs = [bs] ∧ ∀ cs, cutBytes sep (bs ++ sep :: cs) = bs :: cutBytes sep cs := by
  induction bs with
  | nil => exact ⟨rfl, fun cs => by simp [cutBytes]⟩
  | cons b bs ih =>
    rw [List.forall_mem_cons] at h
    obtain ⟨halone, happend⟩ := ih h.2
    constructor
    · rw [cutBytes, if_neg h.1, halone]
    · intro cs
      rw [List.cons_append, cutBytes, if_neg h.1, happend]

/-- Pairs are read back from their text. -/
theorem decode_encode (ps : List (String × String)) :
    decode (String.ofList (encode ps)) = ps := by
  have hpair (p : String × String) : ∀ b ∈ pairBytes p, b ≠ 38 := by
    intro b hb
    rcases mem_pairBytes hb with rfl | ⟨s, hb⟩
    · decide
    · exact (mem_encodeBytes hb).2.1
  have hsome (p : String × String) : (pairBytes p).isEmpty = false := by
    simp [pairBytes]
  rw [decode, encode_eq, Utf8.encode_octets fun b hb => ascii_pairsBytes hb]
  fun_induction pairsBytes ps with
  | case1 => rfl
  | case2 p =>
    rw [(cutBytes_append (hpair p)).1]
    simp [hsome, decodePair_pairBytes]
  | case3 p ps _ ih =>
    rw [(cutBytes_append (hpair p)).2]
    simp [hsome, decodePair_pairBytes, ih]

/-- The bytes of encoded pairs: plain ones, and the four marks of the encoding. -/
def IsMark (b : UInt8) : Prop := isPlain b ∨ b ∈ [(37 : UInt8), 38, 43, 61]

theorem isMark_encodeByte {b x : UInt8} (h : x ∈ encodeByte b) : IsMark x := by
  have hdigit : ∀ n < 16, isPlain (hexDigit n) := by decide
  have hb : b.toNat < 256 := b.toNat_lt
  unfold encodeByte at h
  split at h
  · rename_i hplain
    rw [List.mem_singleton.mp h]
    exact .inl hplain
  split at h
  · rw [List.mem_singleton.mp h]
    exact .inr (by decide)
  · simp only [List.mem_cons, List.not_mem_nil, or_false] at h
    rcases h with rfl | rfl | rfl
    · exact .inr (by decide)
    · exact .inl (hdigit _ (by omega))
    · exact .inl (hdigit _ (by omega))

theorem isMark_pairsBytes {ps : List (String × String)} {x : UInt8} (h : x ∈ pairsBytes ps) :
    IsMark x := by
  rcases mem_pairsBytes h with rfl | rfl | ⟨s, h⟩
  · exact .inr (by decide)
  · exact .inr (by decide)
  · obtain ⟨b, -, h⟩ := List.mem_flatMap.mp h
    exact isMark_encodeByte h

/-- Encoded pairs have no white space and no question mark. -/
theorem mem_encode {ps : List (String × String)} {c : Char} (h : c ∈ encode ps) :
    isBlank c = false ∧ c ≠ '?' := by
  have hmark : ∀ n < 128, IsMark (UInt8.ofNat n) →
      isBlank (Char.ofNat n) = false ∧ Char.ofNat n ≠ '?' := by
    unfold IsMark
    decide
  rw [encode_eq] at h
  obtain ⟨x, hx, rfl⟩ := List.mem_map.mp h
  refine hmark x.toNat (ascii_pairsBytes hx) ?_
  rw [UInt8.ofNat_toNat]
  exact isMark_pairsBytes hx

/-- Letters, digits and the plain marks are written as they are. -/
theorem encodeText_plain {s : String}
    (h : ∀ c ∈ s.toList, c.toNat < 0x80 ∧ isPlain (UInt8.ofNat c.toNat)) :
    encodeText s = s.toList := by
  have hchar {c : Char} (hc : c.toNat < 0x80 ∧ isPlain (UInt8.ofNat c.toNat)) :
      (Utf8.encodeChar c).flatMap encodeByte = [UInt8.ofNat c.toNat] := by
    rw [Utf8.encodeChar]
    simp [hc.1, encodeByte, hc.2]
  rw [encodeText, Utf8.encode]
  generalize s.toList = cs at h
  induction cs with
  | nil => rfl
  | cons c cs ih =>
    rw [List.forall_mem_cons] at h
    have hback : Char.ofNat (UInt8.ofNat c.toNat).toNat = c := by
      rw [Utf8.toNat_ofNat_of_lt (by omega), Char.ofNat_toNat]
    rw [List.flatMap_cons, List.flatMap_append, hchar h.1, List.map_append, ih h.2, List.map_singleton,
      hback, List.singleton_append]

end Form
end RecordGraph.Text
