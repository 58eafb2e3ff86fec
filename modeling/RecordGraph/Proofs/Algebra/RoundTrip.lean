import Mathlib.Data.List.TakeWhile
import RecordGraph.Proofs.Algebra.Derivation
import RecordGraph.Proofs.Algebra.NormalForm

/-!
Printing and parsing boolean trees. The text of a flat tree over words is derived with the nesting that
its parentheses and negations have, and as the tree itself; so it is read back, or refused for its depth.
What is read from any text is flat and over words.
-/
namespace RecordGraph.Algebra

open RecordGraph.Algebra.Derivation

/-! Flat trees are derived as they are printed -/

namespace Tree

/-- What is printed of a tree is derived with its nesting and as the tree, by itself and as an operand. -/
structure Derived (t : Tree) : Prop where
  operand : ∃ o : Operand,
    o.tokens = t.operandTokens ∧ o.depth = t.operandNesting ∧ o.tree.rebuild = t
  whole : ∃ d : Disjunction, d.tokens = t.tokens ∧ d.depth = t.nesting ∧ d.tree.rebuild = t

/-- The conjunction of a single operand. -/
theorem rebuild_and_singleton {t u : Tree} (hw : t.Wide) (h : u.rebuild = t) :
    (Tree.and [u]).rebuild = t := by
  rw [rebuild_and, List.map_singleton, h, conj_singleton hw]

theorem rebuild_or_singleton {t u : Tree} (hw : t.Wide) (h : u.rebuild = t) :
    (Tree.or [u]).rebuild = t := by
  rw [rebuild_or, List.map_singleton, h, disj_singleton hw]

/-- What is no operator is printed the same as an operand. -/
theorem Derived.of_operand {t : Tree} (hw : t.Wide) (plain : t.isOperator = false) {o : Operand}
    (htokens : o.tokens = t.tokens) (hdepth : o.depth = t.nesting) (htree : o.tree.rebuild = t) :
    t.Derived where
  operand := ⟨o, by simp [operandTokens, plain, htokens], by simp [operandNesting, plain, hdepth], htree⟩
  whole := ⟨.last (.last o), htokens, hdepth,
    rebuild_or_singleton hw (rebuild_and_singleton hw htree)⟩

/-- An operator is put into parentheses as an operand. -/
theorem Derived.of_whole {t : Tree} (operator : t.isOperator) {d : Disjunction}
    (htokens : d.tokens = t.tokens) (hdepth : d.depth = t.nesting) (htree : d.tree.rebuild = t) :
    t.Derived where
  operand := ⟨.group d, by rw [Operand.tokens, operandTokens, if_pos operator, htokens],
    by rw [Operand.depth, operandNesting, if_pos operator, hdepth], htree⟩
  whole := ⟨d, htokens, hdepth, htree⟩

section operands
variable {ts : List Tree} (some : ts ≠ []) (each : ∀ t ∈ ts, t.Derived)
include some each

/-- Operands joined by `and` are a conjunction. -/
theorem exists_conjunction : ∃ c : Conjunction, c.tokens = joined .and (ts.map operandTokens) ∧
    c.depth = operandsNesting ts ∧ c.operands.map rebuild = ts := by
  induction ts with
  | nil => exact absurd rfl some
  | cons t ts ih =>
    rw [List.forall_mem_cons] at each
    obtain ⟨o, htokens, hdepth, htree⟩ := each.1.operand
    cases ts with
    | nil =>
      exact ⟨.last o, by simp [Conjunction.tokens, joined, htokens],
        by simp [Conjunction.depth, operandsNesting, hdepth], by simp [Conjunction.operands, htree]⟩
    | cons u ts =>
      obtain ⟨c, ctokens, cdepth, coperands⟩ := ih (by simp) each.2
      rw [List.map_cons] at ctokens
      exact ⟨.more o c, by rw [Conjunction.tokens, htokens, ctokens]; rfl,
        by rw [Conjunction.depth, hdepth, cdepth, ← operandsNesting],
        by rw [Conjunction.operands, List.map_cons, htree, coperands]⟩

/-- Operands joined by `or` are a disjunction of conjunctions of one operand each. -/
theorem exists_disjunction (wide : ∀ t ∈ ts, t.Wide) :
    ∃ d : Disjunction, d.tokens = joined .or (ts.map operandTokens) ∧
      d.depth = operandsNesting ts ∧ d.operands.map rebuild = ts := by
  induction ts with
  | nil => exact absurd rfl some
  | cons t ts ih =>
    rw [List.forall_mem_cons] at each wide
    obtain ⟨o, htokens, hdepth, htree⟩ := each.1.operand
    have hone : (Tree.and (Conjunction.last o).operands).rebuild = t :=
      rebuild_and_singleton wide.1 htree
    cases ts with
    | nil =>
      exact ⟨.last (.last o), by simp [Disjunction.tokens, Conjunction.tokens, joined, htokens],
        by simp [Disjunction.depth, Conjunction.depth, operandsNesting, hdepth],
        by simp [Disjunction.operands, hone]⟩
    | cons u ts =>
      obtain ⟨d, dtokens, ddepth, doperands⟩ := ih (by simp) each.2 wide.2
      rw [List.map_cons] at dtokens
      exact ⟨.more (.last o) d, by rw [Disjunction.tokens, Conjunction.tokens, htokens, dtokens]; rfl,
        by rw [Disjunction.depth, Conjunction.depth, hdepth, ddepth, ← operandsNesting],
        by rw [Disjunction.operands, List.map_cons, hone, doperands]⟩

end operands

theorem Flat.derived {t : Tree} (h : t.Flat) : t.Derived := by
  induction h with
  | symbol name =>
    refine .of_operand (.symbol name) rfl (o := .symbol name) ?_ ?_ rfl
    · rw [Operand.tokens, tokens]
    · rw [Operand.depth, nesting]
  | @not t h ih =>
    obtain ⟨o, htokens, hdepth, htree⟩ := ih.operand
    refine .of_operand (.not h.wide) rfl (o := .not o) ?_ ?_ ?_
    · rw [Operand.tokens, htokens, tokens]
    · rw [Operand.depth, hdepth, nesting]
    · rw [Operand.tree, rebuild, htree]
  | @and ts two own h ih =>
    have some : ts ≠ [] := List.ne_nil_of_length_pos (by omega)
    have hconj : Tree.conj ts = Tree.and ts := collapse_flatMap two own
    obtain ⟨c, htokens, hdepth, hoperands⟩ := exists_conjunction some ih
    refine .of_whole rfl (d := .last c) ?_ ?_ ?_
    · rw [Disjunction.tokens, htokens, tokens, operandTokensAll_eq]
    · rw [Disjunction.depth, hdepth, nesting]
    · refine rebuild_or_singleton (Flat.and two own h).wide ?_
      rw [rebuild_and, hoperands, hconj]
  | @or ts two own h ih =>
    have some : ts ≠ [] := List.ne_nil_of_length_pos (by omega)
    have hdisj : Tree.disj ts = Tree.or ts := collapse_flatMap two own
    obtain ⟨d, htokens, hdepth, hoperands⟩ := exists_disjunction some ih fun t ht => (h t ht).wide
    refine .of_whole rfl (d := d) ?_ ?_ ?_
    · rw [htokens, tokens, operandTokensAll_eq]
    · rw [hdepth, nesting]
    · rw [Disjunction.tree, rebuild_or, hoperands, hdisj]

/-- The text of a flat tree is read back, or refused for the depth of its nesting. -/
theorem Flat.parse_text {t : Tree} (h : t.Flat) (words : ∀ name ∈ t.names, IsWord name) :
    parse t.text = if t.nesting ≤ maxDepth then .ok t else .error .tooDeep := by
  obtain ⟨d, htokens, hdepth, htree⟩ := h.derived.whole
  obtain ⟨spans, hspans, hprinted⟩ := Except.map_eq_ok.mp
    (printed h.wide words [] [.eof] (by rintro c ⟨⟩) lexes_nil 0)
  rw [List.append_nil] at hspans
  rw [parse, tokenize, hspans]
  dsimp only
  rw [hprinted, ← htokens, parseTokens_tokens, hdepth, htree]

end Tree

/-! What is read is over words -/

theorem ofWord_eq_symbol {word name : String} : Token.ofWord word = .symbol name ↔
    word = name ∧ Text.lowerAscii word ∉ ["and", "or", "not"] := by
  unfold Token.ofWord
  split <;> simp_all

/-- Names are the words that spell no operator, in any case. -/
theorem isWord_iff {name : String} : IsWord name ↔ name ≠ "" ∧
    (∀ c ∈ name.toList, isWordChar c) ∧ Text.lowerAscii name ∉ ["and", "or", "not"] :=
  ⟨fun h => ⟨h.holds, h.chars, (ofWord_eq_symbol.mp h.symbol).2⟩,
    fun ⟨holds, chars, operator⟩ => ⟨holds, chars, ofWord_eq_symbol.mpr ⟨rfl, operator⟩⟩⟩

theorem isWord_of_spells {before after piece : List Char} {name : String}
    (h : Spells before after (.symbol name) piece) : IsWord name := by
  cases h with
  | single known => simp [singles] at known
  | alone known | double known => simp [doubles] at known
  | keyword run known => simp [keywords] at known
  | symbol run free =>
    refine isWord_iff.mpr ⟨?_, ?_, free⟩
    · simpa [← String.toList_inj] using run.filled
    · rw [String.toList_ofList]
      exact run.chars

/-- The symbols among the tokens of a text are words. -/
theorem isWord_of_scan {cs : List Char} {spans : List Spanned} {name : String}
    (h : scan 0 cs = .ok spans) (hname : .symbol name ∈ spans.map Spanned.token) : IsWord name := by
  obtain ⟨laid, isLaid, rfl⟩ := laid_of_scan (parted_nil cs) h
  obtain ⟨s, hs, hsymbol⟩ := List.mem_map.mp hname
  rcases List.mem_append.mp hs with hs | hs
  · obtain ⟨_, _, _, -, -, -, spells⟩ := isLaid.spelled hs
    exact isWord_of_spells (hsymbol ▸ spells)
  · obtain rfl := List.mem_singleton.mp hs
    cases hsymbol

/-- The name of a symbol. -/
def Token.name? : Token → Option String
  | .symbol name => some name
  | .and | .or | .not | .lparen | .rparen | .eof => none

namespace Derivation

mutual
/-- A derivation keeps the symbols it derives, in their order. -/
theorem Operand.names_rebuild (o : Operand) :
    o.tree.rebuild.names = o.tokens.filterMap Token.name? := by
  cases o with
  | symbol name => rfl
  | not o =>
    simpa [Operand.tree, Tree.rebuild, Tree.names, Operand.tokens, List.filterMap_cons, Token.name?]
      using o.names_rebuild
  | group d =>
    rw [Operand.tree, Tree.rebuild_or, Tree.names_disj, List.flatMap_map, d.names_operands]
    simp [Operand.tokens, List.filterMap_cons, Token.name?]

theorem Conjunction.names_operands (c : Conjunction) :
    c.operands.flatMap (fun t => t.rebuild.names) = c.tokens.filterMap Token.name? := by
  cases c with
  | last o => simpa [Conjunction.operands, Conjunction.tokens] using o.names_rebuild
  | more o c =>
    simp [Conjunction.operands, Conjunction.tokens, List.filterMap_cons, Token.name?, o.names_rebuild,
      c.names_operands]

theorem Disjunction.names_operands (d : Disjunction) :
    d.operands.flatMap (fun t => t.rebuild.names) = d.tokens.filterMap Token.name? := by
  have each (c : Conjunction)
      (h : c.operands.flatMap (fun t => t.rebuild.names) = c.tokens.filterMap Token.name?) :
      (Tree.and c.operands).rebuild.names = c.tokens.filterMap Token.name? := by
    rw [Tree.rebuild_and, Tree.names_conj, List.flatMap_map, h]
  cases d with
  | last c => simpa [Disjunction.operands, Disjunction.tokens] using each c c.names_operands
  | more c d =>
    simp [Disjunction.operands, Disjunction.tokens, List.filterMap_cons, Token.name?,
      each c c.names_operands, d.names_operands]
end

theorem Disjunction.names_rebuild (d : Disjunction) :
    d.tree.rebuild.names = d.tokens.filterMap Token.name? := by
  rw [Disjunction.tree, Tree.rebuild_or, Tree.names_disj, List.flatMap_map, d.names_operands]

end Derivation

theorem flat_of_parse {text : String} {t : Tree} (h : parse text = .ok t) :
    t.Flat ∧ ∀ name ∈ t.names, IsWord name := by
  cases hspans : tokenize text with
  | error e => simp [parse, hspans] at h
  | ok spans =>
    obtain ⟨tokens, htokens, hnot⟩ := tokens_of_scan hspans
    have read : parseTokens (tokens ++ [.eof]) = .ok t := by
      rw [← htokens, ← h, parse, hspans]
    obtain ⟨d, rfl⟩ := parseTokens_derives hnot read
    rw [parseTokens_tokens] at read
    split at read
    · cases read
      refine ⟨d.flat_rebuild, fun name hname => isWord_of_scan hspans ?_⟩
      rw [d.names_rebuild] at hname
      obtain ⟨token, htoken, hsome⟩ := List.mem_filterMap.mp hname
      cases token <;> cases hsome
      rw [htokens]
      exact List.mem_append_left _ htoken
    · cases read

/-! Both ways -/

/-- A flat tree whose symbols are words that spell no operator in any case is read back from its text, or
refused as too deep if parentheses and negations are nested more than 64 deep in the text; and every tree
that is read from a text is such a tree. -/
theorem parse_text_flat :
    (∀ t : Tree, t.Flat →
      (∀ name ∈ t.names, name ≠ "" ∧ (∀ c ∈ name.toList, isWordChar c) ∧
        Text.lowerAscii name ∉ ["and", "or", "not"]) →
      parse t.text = if t.nesting ≤ 64 then .ok t else .error .tooDeep) ∧
    ∀ text t, parse text = .ok t → t.Flat ∧
      ∀ name ∈ t.names, name ≠ "" ∧ (∀ c ∈ name.toList, isWordChar c) ∧
        Text.lowerAscii name ∉ ["and", "or", "not"] := by
  simp only [← isWord_iff]
  exact ⟨fun t flat words => flat.parse_text words, fun text t h => flat_of_parse h⟩

namespace Tree

/-- A symbol under so many negations. -/
def negated : Nat → Tree
  | 0 => .symbol "a"
  | n + 1 => .not (negated n)

theorem flat_negated (n : Nat) : (negated n).Flat := by
  induction n with
  | zero => exact .symbol "a"
  | succ n ih => exact .not ih

theorem names_negated (n : Nat) : (negated n).names = ["a"] := by
  induction n with
  | zero => rfl
  | succ n ih => rw [negated, names, ih]

theorem nesting_negated (n : Nat) : (negated n).nesting = n := by
  induction n with
  | zero => rw [negated, nesting]
  | succ n ih =>
    have plain : (negated n).isOperator = false := by cases n <;> rfl
    rw [negated, nesting, operandNesting, plain, if_neg (by decide), ih]

end Tree

/-- A negated disjunction in a conjunction is read back as it was and is flat; 64 negations are read back,
65 are refused. -/
theorem parse_text_flat_negated :
    let t : Tree := .and [.symbol "a", .not (.or [.symbol "b", .symbol "C_1"])]
    let word (name : String) := name ≠ "" ∧ (∀ c ∈ name.toList, isWordChar c) ∧
      Text.lowerAscii name ∉ ["and", "or", "not"]
    t.Flat ∧ (∀ name ∈ t.names, word name) ∧ t.nesting = 2 ∧ parse t.text = .ok t ∧
      (∀ n, ∀ name ∈ (Tree.negated n).names, word name) ∧
      parse (Tree.negated 64).text = .ok (.negated 64) ∧
      parse (Tree.negated 65).text = .error .tooDeep := by
  intro t word
  have flat : t.Flat := by
    have inner : (Tree.or [.symbol "b", .symbol "C_1"]).Flat :=
      .or (by decide) (by simp [Tree.disjuncts]) (by simpa using ⟨.symbol _, .symbol _⟩)
    exact .and (by decide) (by simp [Tree.conjuncts]) (by simpa using ⟨.symbol _, .not inner⟩)
  have short : ∀ name ∈ ["a", "b", "C_1"], word name := by
    simp only [word, ← List.all_eq_true]
    decide
  have words : ∀ name ∈ t.names, word name := by
    have names : t.names = ["a", "b", "C_1"] := rfl
    rwa [names]
  have shallow : t.nesting = 2 := by
    simp [t, Tree.nesting, Tree.operandsNesting, Tree.operandNesting, Tree.isOperator]
  have single : ∀ n, ∀ name ∈ (Tree.negated n).names, word name := by
    intro n
    rw [Tree.names_negated]
    simpa using short "a" (by simp)
  have read := parse_text_flat.1 t flat words
  have negated (n : Nat) := parse_text_flat.1 (.negated n) (Tree.flat_negated n) (single n)
  simp only [Tree.nesting_negated] at negated
  rw [shallow, if_pos (by decide)] at read
  exact ⟨(parse_text_flat.2 _ t read).1, words, shallow, read, single, negated 64, negated 65⟩

end RecordGraph.Algebra
