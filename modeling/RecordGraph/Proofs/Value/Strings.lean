import RecordGraph.Proofs.Outcome
import RecordGraph.Proofs.Text.Utf8
import RecordGraph.Value.Printer
import RecordGraph.Value.Scan

/-!
Strings are read back from their quoted text. The reader sees the octets of a text: an escape gives its
character, and an octet that is none of the quote, the backslash and the control characters gives itself.
-/
namespace RecordGraph.Value

/-- The octets of a text. -/
def textOctets (cs : List Char) : List Char := cs.flatMap charOctets

@[simp] theorem textOctets_nil : textOctets [] = [] := rfl

@[simp] theorem textOctets_cons (c : Char) (cs : List Char) :
    textOctets (c :: cs) = charOctets c ++ textOctets cs := rfl

@[simp] theorem textOctets_append (cs ds : List Char) :
    textOctets (cs ++ ds) = textOctets cs ++ textOctets ds := by
  simp [textOctets]

theorem octets_encode (s : String) : Text.Utf8.octets (Text.Utf8.encode s) = textOctets s.toList := by
  simp only [Text.Utf8.octets, Text.Utf8.encode, textOctets, List.map_flatMap]
  rfl

theorem charOctets_ascii {c : Char} (h : c.toNat < 0x80) : charOctets c = [c] := by
  have hc := Text.Utf8.toNat_ofNat_of_lt (show c.toNat < 256 by omega)
  rw [charOctets, Text.Utf8.encodeChar]
  simp [h, Text.Utf8.octets, hc]

theorem textOctets_ascii {cs : List Char} (h : ∀ c ∈ cs, c.toNat < 0x80) : textOctets cs = cs := by
  induction cs with
  | nil => rfl
  | cons c cs ih =>
    rw [List.forall_mem_cons] at h
    rw [textOctets_cons, charOctets_ascii h.1, ih h.2, List.singleton_append]

/-- Octets of characters beyond ASCII are beyond ASCII. -/
theorem le_of_mem_charOctets {c o : Char} (h : 0x80 ≤ c.toNat) (ho : o ∈ charOctets c) :
    0x80 ≤ o.toNat := by
  have hvalid := Text.Utf8.toNat_valid c
  have hbyte : ∃ n, 0x80 ≤ n ∧ n < 256 ∧ o = Char.ofNat (UInt8.ofNat n).toNat := by
    simp only [charOctets, Text.Utf8.octets, Text.Utf8.encodeChar, if_neg (show ¬c.toNat < 0x80 by omega),
      Nat.shiftRight_eq_div_pow] at ho
    split_ifs at ho <;>
      simp only [List.map_cons, List.map_nil, List.mem_cons, List.not_mem_nil, or_false] at ho
    · rcases ho with rfl | rfl <;> exact ⟨_, by omega, by omega, rfl⟩
    · rcases ho with rfl | rfl | rfl <;> exact ⟨_, by omega, by omega, rfl⟩
    · rcases ho with rfl | rfl | rfl | rfl <;> exact ⟨_, by omega, by omega, rfl⟩
  obtain ⟨n, hn, hlt, rfl⟩ := hbyte
  rw [Text.Utf8.toNat_ofNat_of_lt hlt, Text.Utf8.toNat_ofNat_char (by omega)]
  exact hn

/-! Escapes -/

/-- Read on with `before` in front of what is read. -/
def readOn (before cs : List Char) : Reading (List Char) :=
  (readString cs).map fun (s, r) => (before ++ s, r)

theorem readString_octet {c : Char} (hquote : c ≠ '"') (hbackslash : c ≠ '\\')
    (hcontrol : 32 ≤ c.toNat) (cs : List Char) : readString (c :: cs) = readOn [c] cs := by
  rw [readString.eq_def]
  simp [hbackslash, readOn, show ¬c.toNat < 32 by omega]

theorem readString_simple {c x : Char} (h : simpleEscape c = some x) (cs : List Char) :
    readString ('\\' :: c :: cs) = readOn [x] cs := by
  have hu : c ≠ 'u' := by
    rintro rfl
    cases h
  rw [readString.eq_def]
  simp [hu, readOn, h]

theorem readString_escape {a b c d : Char} {n : Nat} (h : hexUnit a b c d = some n)
    (hplain : n < 0xD800) (cs : List Char) :
    readString ('\\' :: 'u' :: a :: b :: c :: d :: cs) = readOn (charOctets (Char.ofNat n)) cs := by
  have htrail : isTrail n = false := by simp [isTrail]; omega
  have hlead : isLead n = false := by simp [isLead]; omega
  by_cases hpair : ∃ e f g h rest, cs = '\\' :: 'u' :: e :: f :: g :: h :: rest
  · obtain ⟨e, f, g, h', rest, rfl⟩ := hpair
    rw [readString]
    simp [h, htrail, hlead, readOn]
  · rw [readString]
    · simp [h, htrail, hlead, readOn]
    · exact fun e f g h rest hcs => hpair ⟨e, f, g, h, rest, hcs⟩

theorem hexUnit_control : ∀ n < 32,
    hexUnit '0' '0' (hexDigit (n / 16)) (hexDigit (n % 16)) = some n := by decide

theorem hexDigit_ascii : ∀ n < 16, (hexDigit n).toNat < 0x80 := by decide

theorem readString_simple_escape {c x : Char} (hc : c.toNat < 0x80) (hx : x.toNat < 0x80)
    (h : simpleEscape c = some x) (cs : List Char) :
    readString (textOctets ['\\', c] ++ cs) = readOn (charOctets x) cs := by
  have hbackslash : ('\\' : Char).toNat < 0x80 := by decide
  rw [textOctets_cons, textOctets_cons, charOctets_ascii hbackslash, charOctets_ascii hc,
    charOctets_ascii hx]
  exact readString_simple h cs

/-- Octets of a character that needs no escape. -/
theorem readString_plain {c : Char} (hquote : c ≠ '"') (hbackslash : c ≠ '\\')
    (hcontrol : 32 ≤ c.toNat) (cs : List Char) :
    readString (charOctets c ++ cs) = readOn (charOctets c) cs := by
  have hplain : ∀ o ∈ charOctets c, o ≠ '"' ∧ o ≠ '\\' ∧ 32 ≤ o.toNat := by
    intro o ho
    by_cases hascii : c.toNat < 0x80
    · rw [charOctets_ascii hascii, List.mem_singleton] at ho
      rw [ho]
      exact ⟨hquote, hbackslash, hcontrol⟩
    · have hbeyond := le_of_mem_charOctets (by omega) ho
      refine ⟨?_, ?_, by omega⟩
      · rintro rfl
        revert hbeyond
        decide
      · rintro rfl
        revert hbeyond
        decide
  generalize charOctets c = os at hplain ⊢
  induction os with
  | nil => cases h : readString cs <;> simp [readOn, h]
  | cons o os ih =>
    rw [List.forall_mem_cons] at hplain
    obtain ⟨⟨hq, hb, hc⟩, hplain⟩ := hplain
    rw [List.cons_append, readString_octet hq hb hc, readOn, ih hplain, readOn, readOn]
    cases readString cs <;> rfl

/-- A character is read back from its form inside quotes. -/
theorem readString_escaped (c : Char) (cs : List Char) :
    readString (textOctets (escaped c) ++ cs) = readOn (charOctets c) cs := by
  have hofNat {n : Nat} (h : c.toNat = n) : c = Char.ofNat n := by rw [← h, Char.ofNat_toNat]
  unfold escaped
  by_cases hquote : c = '"'
  · subst hquote
    exact readString_simple_escape (by decide) (by decide) rfl cs
  by_cases hbackslash : c = '\\'
  · subst hbackslash
    exact readString_simple_escape (by decide) (by decide) rfl cs
  by_cases hnewline : c = '\n'
  · subst hnewline
    exact readString_simple_escape (by decide) (by decide) rfl cs
  by_cases hreturn : c = '\r'
  · subst hreturn
    exact readString_simple_escape (by decide) (by decide) rfl cs
  by_cases htab : c = '\t'
  · subst htab
    exact readString_simple_escape (by decide) (by decide) rfl cs
  rw [if_neg hquote, if_neg hbackslash, if_neg hnewline, if_neg hreturn, if_neg htab]
  by_cases hback : c.toNat = 8
  · rw [if_pos hback, hofNat hback]
    exact readString_simple_escape (by decide) (by decide) rfl cs
  by_cases hfeed : c.toNat = 12
  · rw [if_neg hback, if_pos hfeed, hofNat hfeed]
    exact readString_simple_escape (by decide) (by decide) rfl cs
  rw [if_neg hback, if_neg hfeed]
  by_cases hcontrol : c.toNat < 32
  · rw [if_pos hcontrol, textOctets_ascii]
    · have hunit := hexUnit_control c.toNat hcontrol
      have hread := readString_escape hunit (by omega) cs
      rwa [Char.ofNat_toNat] at hread
    · have hhigh := hexDigit_ascii (c.toNat / 16) (by omega)
      have hlow := hexDigit_ascii (c.toNat % 16) (by omega)
      simp [hhigh, hlow]
  · rw [if_neg hcontrol, textOctets_cons, textOctets_nil, List.append_nil]
    exact readString_plain hquote hbackslash (by omega) cs

/-- What is read up to the closing quote is the text. -/
theorem readString_quoted (s : List Char) (r : List Char) :
    readString (textOctets (s.flatMap escaped) ++ '"' :: r) = .ok (textOctets s, r) := by
  induction s with
  | nil => rfl
  | cons c s ih =>
    rw [List.flatMap_cons, textOctets_append, List.append_assoc, readString_escaped, readOn, ih]
    rfl

/-- A text is read back from behind its first quote. -/
theorem readText_quoted (s : String) (r : List Char) :
    readText (textOctets (s.toList.flatMap escaped ++ ['"']) ++ r) = .ok (s, r) := by
  have hquote : textOctets ['"'] = ['"'] :=
    textOctets_ascii (List.forall_mem_singleton.mpr (by decide))
  rw [readText, textOctets_append, hquote, List.append_assoc, List.singleton_append,
    readString_quoted, Except.ok_bind, ← octets_encode]
  dsimp only
  rw [Text.Utf8.ofOctets_octets, Text.Utf8.decode_encode]

end RecordGraph.Value
