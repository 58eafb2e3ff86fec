import Mathlib.Data.List.Basic
import RecordGraph.Text.Base64

/-!
Base64 is read back: six-bit groups give the bytes they were cut from, and their characters the groups.
-/
namespace RecordGraph.Text.Base64

theorem sextets_lt (bs : List UInt8) : ∀ n ∈ sextets bs, n < 64 := by
  fun_induction sextets bs with
  | case1 => simp
  | case2 a =>
    have ha : a.toNat < 256 := a.toNat_lt
    simp
    omega
  | case3 a b =>
    have ha : a.toNat < 256 := a.toNat_lt
    have hb : b.toNat < 256 := b.toNat_lt
    simp
    omega
  | case4 a b c bs ih =>
    have ha : a.toNat < 256 := a.toNat_lt
    have hb : b.toNat < 256 := b.toNat_lt
    have hc : c.toNat < 256 := c.toNat_lt
    simp only [List.forall_mem_cons]
    exact ⟨by omega, by omega, by omega, by omega, ih⟩

theorem ofSextets_sextets (bs : List UInt8) : ofSextets (sextets bs) = some bs := by
  have hbyte {n : Nat} {b : UInt8} (h : n = b.toNat) : UInt8.ofNat n = b := by
    rw [h, UInt8.ofNat_toNat]
  fun_induction sextets bs with
  | case1 => rfl
  | case2 a =>
    rw [ofSextets, if_pos (by omega), hbyte (b := a) (by omega)]
  | case3 a b =>
    have hb : b.toNat < 256 := b.toNat_lt
    rw [ofSextets, if_pos (by omega), hbyte (b := a) (by omega), hbyte (b := b) (by omega)]
  | case4 a b c bs ih =>
    have hb : b.toNat < 256 := b.toNat_lt
    have hc : c.toNat < 256 := c.toNat_lt
    rw [ofSextets, ih, Option.map_some, hbyte (b := a) (by omega), hbyte (b := b) (by omega),
      hbyte (b := c) (by omega)]

theorem value?_char : ∀ n < 64, urlSafe.value? (urlSafe.char n) = some n := by decide

theorem mem_encode {bs : List UInt8} {c : Char} (h : c ∈ (encode bs).toList) :
    ∃ n < 64, c = urlSafe.char n := by
  rw [encode, String.toList_ofList, List.mem_map] at h
  obtain ⟨n, hn, rfl⟩ := h
  exact ⟨n, sextets_lt bs n hn, rfl⟩

/-- Bytes are read back from their URL-safe form. -/
theorem decode_encode (bs : List UInt8) : decode (encode bs) = some bs := by
  have hvalues (ns : List Nat) (h : ∀ n ∈ ns, n < 64) :
      (ns.map urlSafe.char).mapM urlSafe.value? = some ns := by
    induction ns with
    | nil => rfl
    | cons n ns ih =>
      rw [List.forall_mem_cons] at h
      simp [value?_char n h.1, ih h.2]
  have hchars : decodeChars urlSafe (encode bs).toList = some bs := by
    rw [decodeChars, encode, String.toList_ofList, hvalues _ (sextets_lt bs), Option.bind_some,
      ofSextets_sextets]
  rw [decode, hchars, Option.some_or]

theorem encode_eq_empty {bs : List UInt8} : encode bs = "" ↔ bs = [] := by
  constructor
  · intro h
    have hdecode := decode_encode bs
    rw [h] at hdecode
    exact (Option.some.inj hdecode).symm
  · rintro rfl
    rfl

end RecordGraph.Text.Base64
