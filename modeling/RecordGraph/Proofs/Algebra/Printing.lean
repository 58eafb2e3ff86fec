import RecordGraph.Proofs.Algebra.Conjunctive
import RecordGraph.Proofs.Outcome

/-!
The texts of trees. A tree over words is printed as tokens, with parentheses around the operators below
the root, which are nested as deep as the tree says. Trees in normal form are flat, and nested little.
-/
namespace RecordGraph.Algebra

/-! Tokens from texts -/

/-- The characters are read as the tokens, wherever they stand. -/
def Lexes (cs : List Char) (ts : List Token) : Prop :=
  ∀ position, (scan position cs).map (List.map Spanned.token) = .ok ts

theorem lexes_nil : Lexes [] [.eof] := by
  intro position
  rw [scan]
  rfl

theorem Lexes.blank {cs : List Char} {ts : List Token} (h : Lexes cs ts) : Lexes (' ' :: cs) ts := by
  intro position
  rw [scan, if_pos (by decide)]
  exact h (position + 1)

/-- A token comes before the tokens of what follows it. -/
theorem Lexes.token {c : Char} {cs rest : List Char} {token : Token} {ts : List Token}
    (visible : Text.isBlank c = false) (hlexeme : lexeme c cs = some (token, rest))
    (h : Lexes rest ts) : Lexes (c :: cs) (token :: ts) := by
  intro position
  rw [scan, visible, if_neg (by decide)]
  split
  · rename_i hnone
    cases hnone.symm.trans hlexeme
  · rename_i found behind hfound
    cases hfound.symm.trans hlexeme
    obtain ⟨spans, hspans, htokens⟩ := Except.map_eq_ok.mp
      (h (position + ((c :: cs).length - rest.length)))
    dsimp only
    rw [hspans, Except.ok_map, Except.ok_map, List.map_cons, htokens]

/-- A text that the word of a symbol may stand before. -/
def Ends (cs : List Char) : Prop := ∀ c, cs.head? = some c → isWordChar c = false

/-- A name that is read as a symbol. -/
structure IsWord (name : String) : Prop where
  holds : name ≠ ""
  chars : ∀ c ∈ name.toList, isWordChar c
  symbol : Token.ofWord name = .symbol name

theorem visible_of_isWordChar {c : Char} (h : isWordChar c) :
    Text.isBlank c = false ∧ c ∉ ['(', ')', '&', '|', '!', '~'] := by
  constructor
  · rw [isWordChar] at h
    delta Char.isAlphanum Char.isAlpha Char.isUpper Char.isLower Char.isDigit at h
    simp only [Bool.or_eq_true, Bool.and_eq_true, decide_eq_true_eq, beq_iff_eq,
      UInt32.le_iff_toNat_le] at h
    have hcode : c.toNat = c.val.toNat := rfl
    rcases h with h | rfl
    · simp only [Text.isBlank, hcode, Bool.or_eq_false_iff, Bool.and_eq_false_iff, decide_eq_false_iff_not,
        beq_eq_false_iff_ne]
      simp at h
      omega
    · decide
  · intro hmark
    simp only [List.mem_cons, List.not_mem_nil, or_false] at hmark
    rcases hmark with rfl | rfl | rfl | rfl | rfl | rfl <;> cases h

theorem Lexes.word (name : String) {cs : List Char} {ts : List Token} (holds : name ≠ "")
    (chars : ∀ c ∈ name.toList, isWordChar c) (ends : Ends cs) (h : Lexes cs ts) :
    Lexes (name.toList ++ cs) (.ofWord name :: ts) := by
  cases hname : name.toList with
  | nil => exact absurd (String.toList_eq_nil_iff.mp hname) holds
  | cons c rest =>
    rw [hname, List.forall_mem_cons] at chars
    obtain ⟨visible, hmark⟩ := visible_of_isWordChar chars.1
    simp only [List.mem_cons, List.not_mem_nil, or_false, not_or] at hmark
    have hbehind : (rest ++ cs).takeWhile isWordChar = rest ∧ (rest ++ cs).dropWhile isWordChar = cs := by
      have hcs : cs.takeWhile isWordChar = [] ∧ cs.dropWhile isWordChar = cs := by
        cases cs with
        | nil => exact ⟨rfl, rfl⟩
        | cons d ds => simp [ends d rfl]
      rw [List.takeWhile_append_of_pos chars.2, List.dropWhile_append_of_pos chars.2, hcs.1, hcs.2,
        List.append_nil]
      exact ⟨rfl, rfl⟩
    have hlexeme : lexeme c (rest ++ cs) = some (.ofWord name, cs) := by
      rw [lexeme, if_neg hmark.1, if_neg hmark.2.1, if_neg hmark.2.2.1, if_neg hmark.2.2.2.1,
        if_neg (by simp [hmark.2.2.2.2.1, hmark.2.2.2.2.2]), if_pos chars.1, hbehind.1, hbehind.2,
        ← hname, String.ofList_toList]
    exact h.token visible hlexeme

/-! Tokens of trees -/

/-- Lists of tokens with a token between them. -/
def joined (separator : Token) : List (List Token) → List Token
  | [] => []
  | [tokens] => tokens
  | tokens :: next :: rest => tokens ++ separator :: joined separator (next :: rest)

namespace Tree

mutual
/-- The tokens of the text of a tree. -/
def tokens : Tree → List Token
  | .symbol name => [.symbol name]
  | .not t => .not :: operandTokens t
  | .and ts => joined .and (operandTokensAll ts)
  | .or ts => joined .or (operandTokensAll ts)

def operandTokens (t : Tree) : List Token :=
  if t.isOperator then .lparen :: (tokens t ++ [.rparen]) else tokens t

def operandTokensAll : List Tree → List (List Token)
  | [] => []
  | t :: ts => operandTokens t :: operandTokensAll ts
end

theorem operandTokensAll_eq (ts : List Tree) : operandTokensAll ts = ts.map operandTokens := by
  induction ts with
  | nil => rw [operandTokensAll, List.map_nil]
  | cons t ts ih => rw [operandTokensAll, ih, List.map_cons]

theorem operandTexts_eq (ts : List Tree) : operandTexts ts = ts.map operandText := by
  induction ts with
  | nil => rw [operandTexts, List.map_nil]
  | cons t ts ih => rw [operandTexts, ih, List.map_cons]

/-- The text of the tree is read as its tokens, whatever is read behind it. -/
def Printed (text : Tree → String) (tokens : Tree → List Token) (t : Tree) : Prop :=
  ∀ cs ts, Ends cs → Lexes cs ts → Lexes ((text t).toList ++ cs) (tokens t ++ ts)

theorem Printed.operand {t : Tree} (h : Printed text tokens t) : Printed operandText operandTokens t := by
  intro cs ts ends hcs
  rw [operandText, operandTokens]
  split
  · have hclose : Lexes (')' :: cs) (.rparen :: ts) := hcs.token (by decide) rfl
    have hbody := h _ _ (by rintro c ⟨⟩; decide) hclose
    have hopen : Lexes ('(' :: ((text t).toList ++ ')' :: cs)) (.lparen :: (tokens t ++ .rparen :: ts)) :=
      hbody.token (by decide) rfl
    simpa using hopen
  · exact h cs ts ends hcs

/-- Operands with a word between them. -/
theorem printed_joined (word : String) {separator : Token} (holds : word ≠ "")
    (chars : ∀ c ∈ word.toList, isWordChar c) (hseparator : Token.ofWord word = separator)
    {operands : List Tree} (some : operands ≠ [])
    (h : ∀ t ∈ operands, Printed operandText operandTokens t) (cs : List Char) (ts : List Token)
    (ends : Ends cs) (hcs : Lexes cs ts) :
    Lexes ((Text.join (" " ++ word ++ " ") (operands.map operandText)).toList ++ cs)
      (joined separator (operands.map operandTokens) ++ ts) := by
  induction operands with
  | nil => exact absurd rfl some
  | cons t operands ih =>
    rw [List.forall_mem_cons] at h
    cases operands with
    | nil =>
      have := h.1 cs ts ends hcs
      simpa [Text.join, joined] using this
    | cons u operands =>
      have hrest := ih (by simp) h.2
      have hword := hrest.blank.word word holds chars (by rintro c ⟨⟩; decide)
      rw [hseparator] at hword
      have hfirst := h.1 _ _ (by rintro c ⟨⟩; decide) hword.blank
      simpa [Text.join, joined] using hfirst

/-- Every operator, at any depth, has at least two operands, none of them of its own kind. -/
inductive Flat : Tree → Prop where
  | symbol (name : String) : Flat (.symbol name)
  | not {t : Tree} (h : Flat t) : Flat (.not t)
  | and {ts : List Tree} (two : 2 ≤ ts.length) (own : ∀ t ∈ ts, t.conjuncts = [t])
    (h : ∀ t ∈ ts, Flat t) : Flat (.and ts)
  | or {ts : List Tree} (two : 2 ≤ ts.length) (own : ∀ t ∈ ts, t.disjuncts = [t])
    (h : ∀ t ∈ ts, Flat t) : Flat (.or ts)

theorem Flat.wide {t : Tree} (h : t.Flat) : t.Wide := by
  induction h with
  | symbol name => exact .symbol name
  | not _ ih => exact .not ih
  | and two _ _ ih => exact .and two ih
  | or two _ _ ih => exact .or two ih

theorem printed {t : Tree} (hw : t.Wide) (words : ∀ name ∈ t.names, IsWord name) :
    Printed text tokens t := by
  induction hw with
  | symbol name =>
    have hname := words name (by simp [names])
    intro cs ts ends hcs
    have hword := hcs.word name hname.holds hname.chars ends
    rw [hname.symbol] at hword
    simpa [text, tokens] using hword
  | @not t _ ih =>
    have hoperand := (ih words).operand
    intro cs ts ends hcs
    have hword := (hoperand cs ts ends hcs).blank.word "not" (by decide)
      (List.all_eq_true.mp (by decide))
      (by rintro c ⟨⟩; decide)
    rw [show Token.ofWord "not" = .not by decide] at hword
    simpa [text, tokens] using hword
  | @and ts two _ ih =>
    simp only [names_and, List.forall_mem_flatMap] at words
    intro cs rest ends hcs
    rw [text, tokens, operandTexts_eq, operandTokensAll_eq]
    exact printed_joined "and" (by decide) (List.all_eq_true.mp (by decide)) (by decide)
      (List.ne_nil_of_length_pos (by omega)) (fun t ht => (ih t ht (words t ht)).operand) cs rest ends hcs
  | @or ts two _ ih =>
    simp only [names_or, List.forall_mem_flatMap] at words
    intro cs rest ends hcs
    rw [text, tokens, operandTexts_eq, operandTokensAll_eq]
    exact printed_joined "or" (by decide) (List.all_eq_true.mp (by decide)) (by decide)
      (List.ne_nil_of_length_pos (by omega)) (fun t ht => (ih t ht (words t ht)).operand) cs rest ends hcs

end Tree

/-! Splicing and nesting -/

/-- What may follow an operand. -/
def Stops (rest : List Token) : Prop := rest.head? ≠ some .and ∧ rest.head? ≠ some .or

namespace Tree

theorem conj_singleton {t : Tree} (h : t.Wide) : conj [t] = t := by
  cases h with
  | @and ts two _ =>
    rw [Tree.conj, List.flatMap_singleton, Tree.conjuncts]
    obtain ⟨u, rfl, -⟩ | ⟨-, hc⟩ := collapse_eq Tree.and ts
    · simp at two
    · exact hc
  | _ => rfl

theorem disj_singleton {t : Tree} (h : t.Wide) : disj [t] = t := by
  cases h with
  | @or ts two _ =>
    rw [Tree.disj, List.flatMap_singleton, Tree.disjuncts]
    obtain ⟨u, rfl, -⟩ | ⟨-, hc⟩ := collapse_eq Tree.or ts
    · simp at two
    · exact hc
  | _ => rfl

/-- Operands of other kinds stay as they are under an operator. -/
theorem collapse_flatMap {build : List Tree → Tree} {f : Tree → List Tree} {ts : List Tree}
    (two : 2 ≤ ts.length) (own : ∀ t ∈ ts, f t = [t]) : collapse build (ts.flatMap f) = build ts := by
  rw [flatMap_eq_self own]
  obtain ⟨u, rfl, -⟩ | ⟨-, hc⟩ := collapse_eq build ts
  · simp at two
  · exact hc

mutual
/-- How deep parentheses and negations are nested in the text of a tree. -/
def nesting : Tree → Nat
  | .symbol _ => 0
  | .not t => operandNesting t + 1
  | .and ts => operandsNesting ts
  | .or ts => operandsNesting ts

def operandNesting (t : Tree) : Nat := if t.isOperator then nesting t + 1 else nesting t

def operandsNesting : List Tree → Nat
  | [] => 0
  | t :: ts => max (operandNesting t) (operandsNesting ts)
end

theorem operandsNesting_le {ts : List Tree} {depth : Nat} :
    operandsNesting ts ≤ depth ↔ ∀ t ∈ ts, operandNesting t ≤ depth := by
  induction ts with
  | nil => simp [operandsNesting]
  | cons t ts ih => rw [operandsNesting, Nat.max_le, ih, List.forall_mem_cons]

/-! Normal forms are flat, and nested little -/

theorem operandNesting_of_isLiteral {t : Tree} (h : t.isLiteral) : t.operandNesting ≤ 1 := by
  unfold isLiteral at h
  split at h <;> simp_all [operandNesting, isOperator, nesting]

theorem operandNesting_of_clause {t : Tree} (h : t.isClause ∨ t.isTerm) : t.operandNesting ≤ 2 := by
  have hliterals {ts : List Tree} (h : ts.all isLiteral) : operandsNesting ts ≤ 1 :=
    operandsNesting_le.mpr fun t ht => operandNesting_of_isLiteral (List.all_eq_true.mp h t ht)
  have hliteral {t : Tree} (h : t.isLiteral) : t.operandNesting ≤ 2 :=
    Nat.le_trans (operandNesting_of_isLiteral h) (by decide)
  cases t with
  | symbol name => exact hliteral rfl
  | not t => exact hliteral (h.elim id id)
  | and ts =>
    rcases h with h | h
    · cases h
    · have := hliterals h
      simp only [operandNesting, isOperator, nesting, if_true]
      omega
  | or ts =>
    rcases h with h | h
    · have := hliterals h
      simp only [operandNesting, isOperator, nesting, if_true]
      omega
    · cases h

theorem nesting_of_isNormal {t : Tree} (h : t.IsNormal) : t.nesting ≤ 2 := by
  have hroot {t : Tree} (h : t.isClause ∨ t.isTerm) : t.nesting ≤ 2 := by
    have hoperand := operandNesting_of_clause h
    rw [operandNesting] at hoperand
    split at hoperand <;> omega
  cases t with
  | symbol name => exact hroot (.inl rfl)
  | not t => exact hroot h
  | and ts =>
    rcases h with h | h
    · rw [nesting, operandsNesting_le]
      exact fun t ht => operandNesting_of_clause (.inl (List.all_eq_true.mp h t ht))
    · exact hroot (.inr h)
  | or ts =>
    rcases h with h | h
    · exact hroot (.inl h)
    · rw [nesting, operandsNesting_le]
      exact fun t ht => operandNesting_of_clause (.inr (List.all_eq_true.mp h t ht))

theorem flat_of_isNormal {t : Tree} (hw : t.Wide) (h : t.IsNormal) : t.Flat := by
  induction hw with
  | symbol name => exact .symbol name
  | not _ ih => exact .not (ih (isNormal_of_not h))
  | @and ts two _ ih =>
    refine .and two (fun t ht => ?_) fun t ht => ih t ht (IsNormal.operands (.inl h) t ht)
    rcases h with h | h
    · exact conjuncts_of_isClause (List.all_eq_true.mp h t ht)
    · exact conjuncts_of_isClause (isClause_of_isLiteral (List.all_eq_true.mp h t ht))
  | @or ts two _ ih =>
    refine .or two (fun t ht => ?_) fun t ht => ih t ht (IsNormal.operands (.inr h) t ht)
    rcases h with h | h
    · exact disjuncts_of_isLiteral (List.all_eq_true.mp h t ht)
    · have hterm : t.isTerm := List.all_eq_true.mp h t ht
      cases t <;> first | rfl | cases hterm

end Tree

end RecordGraph.Algebra
