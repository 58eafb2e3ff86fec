import Mathlib.Data.List.TakeWhile
import RecordGraph.Proofs.Algebra.Printing

/-!
What becomes of the characters of a text. A text of white space, words and marks is read to its end, and
its tokens stand one behind the other on all of it that is not white space: words are as long as they can
be, and a mark that stands double is one token. Any other character ends the reading where it stands.
-/
namespace RecordGraph.Algebra

/-- The characters of parentheses and operators. -/
def marks : List Char := ['(', ')', '&', '|', '!', '~']

/-- White space, and the characters that tokens are made of. -/
def IsLegible (c : Char) : Prop := Text.isBlank c ∨ isWordChar c ∨ c ∈ marks

instance : DecidablePred IsLegible := fun _ => inferInstanceAs (Decidable (_ ∨ _ ∨ _))

/-- The words that are operators, in lower case. -/
def keywords : List (String × Token) := [("and", .and), ("or", .or), ("not", .not)]

/-- The marks that may stand double. -/
def doubles : List (Char × Token) := [('&', .and), ('|', .or)]

/-- The marks that stand alone. -/
def singles : List (Char × Token) := [('(', .lparen), (')', .rparen), ('!', .not), ('~', .not)]

/-- A word that goes on in neither direction. -/
structure IsRun (before word after : List Char) : Prop where
  filled : word ≠ []
  chars : ∀ c ∈ word, isWordChar c
  starts : ∀ c, before.getLast? = some c → isWordChar c = false
  ends : Ends after

/-- The characters of a token between those before and behind it. -/
inductive Spells (before after : List Char) : Token → List Char → Prop
  | single {mark : Char} {token : Token} (known : (mark, token) ∈ singles) :
    Spells before after token [mark]
  | alone {mark : Char} {token : Token} (known : (mark, token) ∈ doubles)
    (ends : after.head? ≠ some mark) : Spells before after token [mark]
  | double {mark : Char} {token : Token} (known : (mark, token) ∈ doubles) :
    Spells before after token [mark, mark]
  | keyword {word : List Char} {token : Token} (run : IsRun before word after)
    (known : (Text.lowerAscii (String.ofList word), token) ∈ keywords) :
    Spells before after token word
  | symbol {word : List Char} (run : IsRun before word after)
    (free : Text.lowerAscii (String.ofList word) ∉ keywords.map Prod.fst) :
    Spells before after (.symbol (String.ofList word)) word

/-- No word goes on from one text to the next. -/
def Parted (before after : List Char) : Prop :=
  ∀ c, before.getLast? = some c → isWordChar c → Ends after

/-! One token -/

section token
variable {before after piece : List Char} {token : Token}

theorem ofWord_cases (word : String) :
    (Text.lowerAscii word, Token.ofWord word) ∈ keywords ∨
      Text.lowerAscii word ∉ keywords.map Prod.fst ∧ Token.ofWord word = .symbol word := by
  unfold Token.ofWord
  split <;> simp_all [keywords]

theorem IsRun.spells (run : IsRun before piece after) :
    Spells before after (.ofWord (String.ofList piece)) piece := by
  rcases ofWord_cases (String.ofList piece) with known | ⟨free, heq⟩
  · exact .keyword run known
  · rw [heq]
    exact .symbol run free

theorem Spells.filled (h : Spells before after token piece) : piece ≠ [] := by
  cases h with
  | single | alone | double => simp
  | keyword run | symbol run => exact run.filled

theorem Spells.ne_eof (h : Spells before after token piece) : token ≠ .eof := by
  rintro rfl
  cases h with
  | single known => simp [singles] at known
  | alone known | double known => simp [doubles] at known
  | keyword run known => simp [keywords] at known

/-- A token is a word or made of marks. -/
theorem Spells.run_or_marks (h : Spells before after token piece) :
    IsRun before piece after ∨ ∀ c ∈ piece, c ∈ marks := by
  have hsingle : ∀ e ∈ singles, e.1 ∈ marks := by decide
  have hdouble : ∀ e ∈ doubles, e.1 ∈ marks := by decide
  cases h with
  | single known => exact .inr (by simpa using hsingle _ known)
  | alone known => exact .inr (by simpa using hdouble _ known)
  | double known => exact .inr (by simpa using hdouble _ known)
  | keyword run | symbol run => exact .inl run

theorem visible_of_mark : ∀ c ∈ marks, Text.isBlank c = false ∧ isWordChar c = false := by
  have hall : (marks.all fun c => !Text.isBlank c && !isWordChar c) = true := by decide
  simpa using hall

/-- A token is made of legible characters that are not white space. -/
theorem Spells.visible (h : Spells before after token piece) :
    ∀ c ∈ piece, Text.isBlank c = false ∧ IsLegible c := by
  intro c hc
  rcases h.run_or_marks with run | hmarks
  · exact ⟨(visible_of_isWordChar (run.chars c hc)).1, .inr (.inl (run.chars c hc))⟩
  · exact ⟨(visible_of_mark c (hmarks c hc)).1, .inr (.inr (hmarks c hc))⟩

/-- Behind a token no word goes on. -/
theorem Spells.parted (h : Spells before after token piece) : Parted (before ++ piece) after := by
  intro c hc hword
  rw [List.getLast?_append_of_ne_nil _ h.filled] at hc
  rcases h.run_or_marks with run | hmarks
  · exact run.ends
  · rw [(visible_of_mark c (hmarks c (List.mem_of_getLast? hc))).2] at hword
    cases hword

end token

theorem lexeme_eq_none {c : Char} {cs : List Char} (visible : Text.isBlank c = false) :
    lexeme c cs = none ↔ ¬IsLegible c := by
  unfold lexeme IsLegible marks
  simp only [visible]
  split_ifs <;> simp_all

/-- A token is the characters up to where it stops. -/
theorem lexeme_spells {c : Char} {before cs rest : List Char} {token : Token}
    (parted : Parted before (c :: cs)) (h : lexeme c cs = some (token, rest)) :
    ∃ piece, c :: cs = piece ++ rest ∧ Spells before rest token piece := by
  have hskip (mark : Char) : skipMark mark cs = cs ∧ cs.head? ≠ some mark ∨
      cs = mark :: skipMark mark cs := by
    cases cs with
    | nil => exact .inl ⟨rfl, by simp⟩
    | cons d cs =>
      by_cases hd : d = mark
      · exact .inr (by simp [skipMark, hd])
      · exact .inl (by simp [skipMark, hd])
  have hmark {token : Token} (known : (c, token) ∈ doubles) :
      ∃ piece, c :: cs = piece ++ skipMark c cs ∧ Spells before (skipMark c cs) token piece := by
    rcases hskip c with ⟨hsame, hhead⟩ | hdouble
    · exact ⟨[c], by rw [hsame]; rfl, .alone known (by rwa [hsame])⟩
    · exact ⟨[c, c], by rw [List.cons_append, List.singleton_append, ← hdouble], .double known⟩
  unfold lexeme at h
  split_ifs at h with h1 h2 h3 h4 h5 h6 <;>
    simp only [Option.some.injEq, Prod.mk.injEq] at h <;> obtain ⟨rfl, rfl⟩ := h
  · exact ⟨[c], rfl, .single (by rw [h1]; decide)⟩
  · exact ⟨[c], rfl, .single (by rw [h2]; decide)⟩
  · rw [← h3]
    exact hmark (by rw [h3]; decide)
  · rw [← h4]
    exact hmark (by rw [h4]; decide)
  · exact ⟨[c], rfl, .single (by simpa [singles] using h5)⟩
  · refine ⟨c :: cs.takeWhile isWordChar, by simp, IsRun.spells ⟨by simp, ?_, ?_, ?_⟩⟩
    · exact List.forall_mem_cons.mpr ⟨h6, fun d hd => List.mem_takeWhile_imp hd⟩
    · intro d hd
      by_contra hword
      rw [Bool.not_eq_false] at hword
      rw [parted d hd hword c rfl] at h6
      cases h6
    · intro d hd
      have hstop := List.head?_dropWhile_not isWordChar cs
      rw [hd] at hstop
      simpa using hstop

/-! The tokens of a text -/

/-- Tokens that stand one behind the other from a place of a text on, with white space between them. -/
inductive Laid : List Char → List Char → List Spanned → Prop
  | nil (before : List Char) : Laid before [] []
  | blank {before cs : List Char} {c : Char} {tokens : List Spanned} (blank : Text.isBlank c)
    (behind : Laid (before ++ [c]) cs tokens) : Laid before (c :: cs) tokens
  | token {before piece cs : List Char} {token : Token} {tokens : List Spanned}
    (spells : Spells before cs token piece) (behind : Laid (before ++ piece) cs tokens) :
    Laid before (piece ++ cs) (⟨token, before.length, before.length + piece.length⟩ :: tokens)

section laid
variable {before cs : List Char} {tokens : List Spanned}

theorem laid_of_scan {spans : List Spanned} (parted : Parted before cs)
    (h : scan before.length cs = .ok spans) :
    ∃ tokens, Laid before cs tokens ∧
      spans = tokens ++ [⟨.eof, (before ++ cs).length, (before ++ cs).length⟩] := by
  generalize hposition : before.length = position at h
  fun_induction scan position cs generalizing before spans with
  | case1 position =>
    cases h
    exact ⟨[], .nil before, by simp [hposition]⟩
  | case2 position c cs blank ih =>
    have hparted : Parted (before ++ [c]) cs := by
      intro d hd hword
      rw [List.getLast?_concat, Option.some.injEq] at hd
      subst hd
      rw [(visible_of_isWordChar hword).1] at blank
      cases blank
    obtain ⟨tokens, laid, hspans⟩ := ih hparted (by simp [hposition]) h
    exact ⟨tokens, .blank blank laid, by simpa using hspans⟩
  | case3 position c cs visible none => cases h
  | case4 position c cs visible token rest hlexeme shorter stop =>
    rename_i ih
    obtain ⟨behind, hbehind, rfl⟩ := Except.map_eq_ok.mp h
    obtain ⟨piece, hpiece, spells⟩ := lexeme_spells parted hlexeme
    have hstop : stop = (before ++ piece).length := by
      have hlength := congrArg List.length hpiece
      simp only [List.length_append] at hlength ⊢
      omega
    obtain ⟨tokens, laid, rfl⟩ := ih spells.parted hstop.symm hbehind
    refine ⟨⟨token, before.length, before.length + piece.length⟩ :: tokens, ?_, ?_⟩
    · rw [hpiece]
      exact .token spells laid
    · rw [hpiece, hstop, hposition]
      simp [hposition]

/-- A text is read exactly if all of it is legible. -/
theorem Laid.legible (h : Laid before cs tokens) : ∀ c ∈ cs, IsLegible c := by
  induction h with
  | nil => simp
  | blank blank _ ih => exact List.forall_mem_cons.mpr ⟨.inl blank, ih⟩
  | token spells _ ih =>
    intro c hc
    rcases List.mem_append.mp hc with hc | hc
    · exact (spells.visible c hc).2
    · exact ih c hc

/-- Every token is spelled by the characters it covers. -/
theorem Laid.spelled (h : Laid before cs tokens) {s : Spanned} (hs : s ∈ tokens) :
    ∃ front piece back, before ++ cs = front ++ piece ++ back ∧ s.start = front.length ∧
      s.stop = front.length + piece.length ∧ Spells front back s.token piece := by
  induction h with
  | nil => cases hs
  | blank _ _ ih => simpa using ih hs
  | @token before piece cs token tokens spells _ ih =>
    rcases List.mem_cons.mp hs with rfl | hs
    · exact ⟨before, piece, cs, by simp, rfl, rfl, spells⟩
    · simpa using ih hs

theorem Laid.start_le (h : Laid before cs tokens) : ∀ s ∈ tokens, before.length ≤ s.start := by
  induction h with
  | nil => simp
  | blank _ _ ih =>
    intro s hs
    have := ih s hs
    rw [List.length_append] at this
    omega
  | token _ _ ih =>
    refine List.forall_mem_cons.mpr ⟨Nat.le_refl _, fun s hs => ?_⟩
    have := ih s hs
    rw [List.length_append] at this
    omega

/-- Tokens stand one behind the other. -/
theorem Laid.pairwise (h : Laid before cs tokens) :
    tokens.Pairwise fun s t => s.stop ≤ t.start := by
  induction h with
  | nil => exact .nil
  | blank _ _ ih => exact ih
  | token _ behind ih =>
    refine .cons (fun t ht => ?_) ih
    simpa using behind.start_le t ht

/-- Tokens cover all that is not white space, and nothing else. -/
theorem Laid.covers (h : Laid before cs tokens) {i : Nat} {c : Char} (hc : cs[i]? = some c) :
    Text.isBlank c = false ↔
      ∃ s ∈ tokens, s.start ≤ before.length + i ∧ before.length + i < s.stop := by
  induction h generalizing i with
  | nil => cases hc
  | @blank before cs d tokens blank behind ih =>
    cases i with
    | zero =>
      obtain rfl : d = c := by simpa using hc
      refine iff_of_false (by simp [blank]) ?_
      rintro ⟨s, hs, hstart, -⟩
      have hle := behind.start_le s hs
      rw [List.length_append, List.length_singleton] at hle
      omega
    | succ i =>
      have hi : before.length + (i + 1) = (before ++ [d]).length + i := by
        rw [List.length_append, List.length_singleton]
        omega
      rw [hi]
      exact ih (by simpa using hc)
  | @token before piece cs token tokens spells behind ih =>
    by_cases hi : i < piece.length
    · rw [List.getElem?_append_left hi] at hc
      refine iff_of_true (spells.visible c (List.mem_of_getElem? hc)).1 ?_
      exact ⟨_, List.mem_cons_self, Nat.le_add_right _ _, Nat.add_lt_add_left hi _⟩
    · rw [List.getElem?_append_right (by omega)] at hc
      have hplace : (before ++ piece).length + (i - piece.length) = before.length + i := by
        rw [List.length_append]
        omega
      have hfirst : ¬before.length + i < before.length + piece.length := by omega
      rw [ih hc, hplace, List.exists_mem_cons_iff]
      simp [hfirst]

end laid

/-! Characters that end the reading -/

theorem parted_nil (cs : List Char) : Parted [] cs := by
  intro c hc
  cases hc

/-- A token stops before a character that is not legible. -/
theorem lexeme_within {d c : Char} {cs rest before after : List Char} {token : Token}
    (hlexeme : lexeme d cs = some (token, rest)) (hcs : d :: cs = before ++ c :: after)
    (illegible : ¬IsLegible c) :
    ∃ piece between, before = piece ++ between ∧ d :: cs = piece ++ rest ∧
      rest = between ++ c :: after := by
  obtain ⟨piece, hpiece, spells⟩ := lexeme_spells (parted_nil _) hlexeme
  rcases List.append_eq_append_iff.mp (hpiece.symm.trans hcs) with
    ⟨between, hbefore, hrest⟩ | ⟨between, hbefore, hrest⟩
  · exact ⟨piece, between, hbefore, hpiece, hrest⟩
  · cases between with
    | nil => exact ⟨piece, [], by simpa using hbefore.symm, hpiece, by simpa using hrest.symm⟩
    | cons e between =>
      obtain ⟨rfl, -⟩ := List.cons.inj hrest
      exact absurd (spells.visible c (by simp [hbefore])).2 illegible

/-- Reading stops at the first character that is not legible. -/
theorem scan_illegible {position : Nat} {before after : List Char} {c : Char}
    (legible : ∀ d ∈ before, IsLegible d) (illegible : ¬IsLegible c) :
    scan position (before ++ c :: after) = .error (.unexpectedChar c (position + before.length)) := by
  generalize hcs : before ++ c :: after = cs
  fun_induction scan position cs generalizing before with
  | case1 position => simp at hcs
  | case2 position d cs blank ih =>
    cases before with
    | nil =>
      obtain ⟨rfl, -⟩ := List.cons.inj hcs
      exact absurd (.inl blank) illegible
    | cons e before =>
      obtain ⟨rfl, rfl⟩ := List.cons.inj hcs
      rw [ih (List.forall_mem_cons.mp legible).2 rfl, List.length_cons, Nat.add_right_comm,
        Nat.add_assoc]
  | case3 position d cs visible none =>
    rw [lexeme_eq_none (by simpa using visible)] at none
    cases before with
    | nil =>
      obtain ⟨rfl, -⟩ := List.cons.inj hcs
      rfl
    | cons e before =>
      obtain ⟨rfl, -⟩ := List.cons.inj hcs
      exact absurd (legible e List.mem_cons_self) none
  | case4 position d cs visible token rest hlexeme shorter stop =>
    rename_i ih
    obtain ⟨piece, between, rfl, hpiece, hrest⟩ := lexeme_within hlexeme hcs.symm illegible
    have hstop : stop + between.length = position + (piece ++ between).length := by
      have hlength := congrArg List.length hpiece
      simp only [List.length_append] at hlength ⊢
      omega
    rw [ih (fun e he => legible e (by simp [he])) hrest.symm, hstop]
    rfl

/-- Reading fails only at a character that is not legible. -/
theorem scan_legible {position : Nat} {cs : List Char} (legible : ∀ c ∈ cs, IsLegible c) :
    ∃ spans, scan position cs = .ok spans := by
  fun_induction scan position cs with
  | case1 position => exact ⟨_, rfl⟩
  | case2 position c cs blank ih => exact ih (List.forall_mem_cons.mp legible).2
  | case3 position c cs visible none =>
    rw [lexeme_eq_none (by simpa using visible)] at none
    exact absurd (legible c List.mem_cons_self) none
  | case4 position c cs visible token rest hlexeme shorter stop =>
    rename_i ih
    obtain ⟨piece, hpiece, -⟩ := lexeme_spells (parted_nil _) hlexeme
    rw [hpiece] at legible
    obtain ⟨spans, hspans⟩ := ih fun d hd => legible d (by simp [hd])
    exact ⟨_, by rw [hspans]; rfl⟩

/-- Either all characters are legible, or there is a first that is not. -/
theorem exists_illegible (cs : List Char) : (∀ c ∈ cs, IsLegible c) ∨
    ∃ before c after, cs = before ++ c :: after ∧ (∀ d ∈ before, IsLegible d) ∧ ¬IsLegible c := by
  induction cs with
  | nil => exact .inl (by simp)
  | cons c cs ih =>
    by_cases hc : IsLegible c
    · rcases ih with legible | ⟨before, d, after, rfl, legible, illegible⟩
      · exact .inl (List.forall_mem_cons.mpr ⟨hc, legible⟩)
      · exact .inr ⟨c :: before, d, after, rfl, List.forall_mem_cons.mpr ⟨hc, legible⟩, illegible⟩
    · exact .inr ⟨[], c, cs, rfl, by simp, hc⟩

/-! Whole texts -/

/-- A text is read exactly if all its characters are legible, and else fails at the first that is not.
Its tokens stand one behind the other before the end of the input, they cover exactly what is not white
space, and each is spelled by what it covers: by a longest run of word characters, or by a mark, which is
taken together with a second one of its kind if it may stand double. -/
theorem tokenize_lossless (text : String) :
    ((∃ spans, tokenize text = .ok spans) ↔ ∀ c ∈ text.toList, IsLegible c) ∧
      (∀ e, tokenize text = .error e ↔ ∃ before c after, text.toList = before ++ c :: after ∧
        (∀ d ∈ before, IsLegible d) ∧ ¬IsLegible c ∧ e = .unexpectedChar c before.length) ∧
      ∀ spans, tokenize text = .ok spans →
        ∃ tokens, spans = tokens ++ [⟨.eof, text.length, text.length⟩] ∧
          (tokens.Pairwise fun s t => s.stop ≤ t.start) ∧
          (∀ s ∈ tokens, s.token ≠ .eof ∧ s.start < s.stop ∧ s.stop ≤ text.length) ∧
          (∀ i c, text.toList[i]? = some c →
            (Text.isBlank c = false ↔ ∃ s ∈ tokens, s.start ≤ i ∧ i < s.stop)) ∧
          ∀ s ∈ tokens, ∃ before piece after, text.toList = before ++ piece ++ after ∧
            s.start = before.length ∧ s.stop = before.length + piece.length ∧
            Spells before after s.token piece := by
  have laid {spans : List Spanned} (h : tokenize text = .ok spans) :
      ∃ tokens, Laid [] text.toList tokens ∧
        spans = tokens ++ [⟨.eof, text.length, text.length⟩] := by
    rw [← String.length_toList]
    exact laid_of_scan (parted_nil text.toList) h
  have reads : (∃ spans, tokenize text = .ok spans) ↔ ∀ c ∈ text.toList, IsLegible c := by
    constructor
    · rintro ⟨spans, hspans⟩
      obtain ⟨tokens, h, -⟩ := laid hspans
      exact h.legible
    · exact scan_legible
  refine ⟨reads, fun e => ?_, fun spans hspans => ?_⟩
  · constructor
    · intro he
      rcases exists_illegible text.toList with legible | ⟨before, c, after, hsplit, legible, illegible⟩
      · obtain ⟨spans, hspans⟩ := reads.mpr legible
        cases hspans.symm.trans he
      · rw [tokenize, hsplit, scan_illegible legible illegible, Nat.zero_add] at he
        cases he
        exact ⟨before, c, after, hsplit, legible, illegible, rfl⟩
    · rintro ⟨before, c, after, hsplit, legible, illegible, rfl⟩
      rw [tokenize, hsplit, scan_illegible legible illegible, Nat.zero_add]
  · obtain ⟨tokens, h, rfl⟩ := laid hspans
    have spelled (s) (hs : s ∈ tokens) : ∃ before piece after,
        text.toList = before ++ piece ++ after ∧ s.start = before.length ∧
          s.stop = before.length + piece.length ∧ Spells before after s.token piece := h.spelled hs
    refine ⟨tokens, rfl, h.pairwise, fun s hs => ?_, fun i c hc => by simpa using h.covers hc, spelled⟩
    obtain ⟨before, piece, after, hsplit, hstart, hstop, spells⟩ := spelled s hs
    have hfilled := List.length_pos_iff.mpr spells.filled
    have hlength := congrArg List.length hsplit
    simp only [String.length_toList, List.length_append] at hlength
    exact ⟨spells.ne_eof, by omega, by omega⟩

/-- Three marks of one kind are two tokens, a keyword may have capitals, and a word goes on behind one. -/
theorem tokenize_lossless_marks :
    let text := "a&&& Or|not_b"
    let tokens : List Spanned := [⟨.symbol "a", 0, 1⟩, ⟨.and, 1, 3⟩, ⟨.and, 3, 4⟩, ⟨.or, 5, 7⟩,
      ⟨.or, 7, 8⟩, ⟨.symbol "not_b", 8, 13⟩]
    (∀ c ∈ text.toList, IsLegible c) ∧ tokenize text = .ok (tokens ++ [⟨.eof, 13, 13⟩]) ∧
      (∀ s ∈ tokens, ∃ before piece after, text.toList = before ++ piece ++ after ∧
        s.start = before.length ∧ s.stop = before.length + piece.length ∧
        Spells before after s.token piece) ∧
      tokenize "a = b" = .error (.unexpectedChar '=' 2) := by
  intro text tokens
  have hall : (text.toList.all fun c => decide (IsLegible c)) = true := by decide +kernel
  have legible : ∀ c ∈ text.toList, IsLegible c :=
    fun c hc => of_decide_eq_true (List.all_eq_true.mp hall c hc)
  have hread : (tokenize text).toOption = some (tokens ++ [⟨.eof, 13, 13⟩]) := by decide +kernel
  obtain ⟨spans, hspans⟩ := (tokenize_lossless text).1.mpr legible
  obtain ⟨tokens', heq, -, -, -, spelled⟩ := (tokenize_lossless text).2.2 spans hspans
  rw [hspans, Except.toOption, Option.some.injEq] at hread
  obtain ⟨rfl, -⟩ := List.append_inj' (heq.symm.trans hread) rfl
  refine ⟨legible, hread ▸ hspans, spelled, ((tokenize_lossless "a = b").2.1 _).mpr ?_⟩
  have hbefore : (['a', ' '].all fun c => decide (IsLegible c)) = true := by decide
  exact ⟨['a', ' '], '=', [' ', 'b'], rfl,
    fun c hc => of_decide_eq_true (List.all_eq_true.mp hbefore c hc), by decide, rfl⟩

end RecordGraph.Algebra
