import RecordGraph.Proofs.Algebra.Lexing

/-!
Boolean texts and their grammar. A derivation is built from the three rules of the grammar; it has the
tokens it derives, a tree, and the number of parentheses and negations that its deepest point lies under.
A text is read exactly if its tokens have a derivation which is not too deep, as the tree of that
derivation with operators spliced; one with a deeper derivation is refused for its depth.
-/
namespace RecordGraph.Algebra

/-! The grammar -/

namespace Derivation

mutual
/-- `or := and (OR and)*` -/
inductive Disjunction where
  | last (operand : Conjunction)
  | more (operand : Conjunction) (rest : Disjunction)

/-- `and := not (AND not)*` -/
inductive Conjunction where
  | last (operand : Operand)
  | more (operand : Operand) (rest : Conjunction)

/-- `not := NOT not | SYMBOL | LPAREN or RPAREN` -/
inductive Operand where
  | symbol (name : String)
  | not (operand : Operand)
  | group (inner : Disjunction)
end

mutual
/-- The tokens that are derived. -/
def Disjunction.tokens : Disjunction → List Token
  | .last c => c.tokens
  | .more c d => c.tokens ++ .or :: d.tokens

def Conjunction.tokens : Conjunction → List Token
  | .last o => o.tokens
  | .more o c => o.tokens ++ .and :: c.tokens

def Operand.tokens : Operand → List Token
  | .symbol name => [.symbol name]
  | .not o => .not :: o.tokens
  | .group d => .lparen :: (d.tokens ++ [.rparen])
end

mutual
/-- How many parentheses and negations the deepest point of a derivation lies under. -/
def Disjunction.depth : Disjunction → Nat
  | .last c => c.depth
  | .more c d => max c.depth d.depth

def Conjunction.depth : Conjunction → Nat
  | .last o => o.depth
  | .more o c => max o.depth c.depth

def Operand.depth : Operand → Nat
  | .symbol _ => 0
  | .not o => o.depth + 1
  | .group d => d.depth + 1
end

mutual
/-- The trees of the operands that a disjunction is derived with. -/
def Disjunction.operands : Disjunction → List Tree
  | .last c => [.and c.operands]
  | .more c d => .and c.operands :: d.operands

def Conjunction.operands : Conjunction → List Tree
  | .last o => [o.tree]
  | .more o c => o.tree :: c.operands

/-- The tree of a derivation, which has a node for each rule that was used. -/
def Operand.tree : Operand → Tree
  | .symbol name => .symbol name
  | .not o => .not o.tree
  | .group d => .or d.operands
end

def Disjunction.tree (d : Disjunction) : Tree := .or d.operands

def Conjunction.tree (c : Conjunction) : Tree := .and c.operands

end Derivation

open RecordGraph.Algebra.Derivation

/-! Derived tokens are read -/

/-- What a reader answers that allows so many levels: the value, unless it is nested deeper. -/
def within {α : Type} (depth levels : Nat) (a : α) (rest : List Token) :
    Except ParseError (α × List Token) :=
  if depth ≤ levels then .ok (a, rest) else .error .tooDeep

theorem within_bind {α β : Type} (depth levels : Nat) (a : α) (rest : List Token)
    (f : α × List Token → Except ParseError β) :
    (within depth levels a rest).bind f = if depth ≤ levels then f (a, rest) else .error .tooDeep := by
  unfold within
  split <;> rfl

/-- One level more, above. -/
theorem within_succ {α : Type} (depth levels : Nat) (a : α) (rest : List Token) :
    within (depth + 1) (levels + 1) a rest = within depth levels a rest := by
  simp only [within, Nat.add_le_add_iff_right]

section chain
variable {separator : Token} {operand : Reader Tree} {levels fuel : Nat} {tokens rest : List Token}
  {t : Tree} {depth : Nat}

/-- A chain ends with an operand that no separator follows. -/
theorem chain_last (read : operand tokens = within depth levels t rest)
    (stops : rest.head? ≠ some separator) :
    chain separator operand (fuel + 1) tokens = within depth levels [t] rest := by
  rw [chain, read]
  unfold within
  split
  · simp only [Except.monad_bind, Except.ok_bind]
    split
    · rename_i next after
      rw [if_neg fun h => stops (congrArg _ h)]
      rfl
    · rfl
  · rfl

/-- A chain goes on behind a separator. -/
theorem chain_more {deep : Nat} {ts : List Tree} {after : List Token}
    (read : operand tokens = within depth levels t (separator :: after))
    (reads : chain separator operand fuel after = within deep levels ts rest) :
    chain separator operand (fuel + 1) tokens = within (max depth deep) levels (t :: ts) rest := by
  rw [chain, read, Except.monad_bind, within_bind]
  dsimp only
  rw [if_pos rfl, reads, Except.monad_bind, within_bind]
  unfold within
  by_cases h : depth ≤ levels
  · simp only [h, if_true, Nat.max_le, true_and]
    rfl
  · simp only [h, if_false, Nat.max_le, false_and]

end chain

namespace Tree

theorem rebuildAll_eq (ts : List Tree) : rebuildAll ts = ts.map rebuild := by
  induction ts with
  | nil => rfl
  | cons t ts ih => rw [rebuildAll, ih, List.map_cons]

theorem rebuild_and (ts : List Tree) : (Tree.and ts).rebuild = conj (ts.map rebuild) := by
  rw [rebuild, rebuildAll_eq]

theorem rebuild_or (ts : List Tree) : (Tree.or ts).rebuild = disj (ts.map rebuild) := by
  rw [rebuild, rebuildAll_eq]

end Tree

section joined
variable {operand : Reader Tree} {tokens rest : List Token} {depth levels : Nat} {ts : List Tree}

/-- A conjunction is read as the chain of its operands. -/
theorem conjunction_within (reads : chain .and operand (tokens.length + 1) tokens =
    within depth levels (ts.map Tree.rebuild) rest) :
    conjunction operand tokens = within depth levels (Tree.and ts).rebuild rest := by
  rw [conjunction, reads, Except.monad_bind, within_bind, Tree.rebuild_and]
  rfl

theorem disjunction_within (reads : chain .or (conjunction operand) (tokens.length + 1) tokens =
    within depth levels (ts.map Tree.rebuild) rest) :
    disjunction operand tokens = within depth levels (Tree.or ts).rebuild rest := by
  rw [disjunction, reads, Except.monad_bind, within_bind, Tree.rebuild_or]
  rfl

end joined

/-- There is fuel for every operand of what stands at the front. -/
theorem enough_fuel (tokens rest : List Token) : tokens.length < (tokens ++ rest).length + 1 := by
  rw [List.length_append]
  omega

mutual
/-- Derived tokens are read as their tree if the levels suffice, and refused for their depth if not. -/
theorem unary_tokens (o : Operand) (levels : Nat) (rest : List Token) :
    unary levels (o.tokens ++ rest) = within o.depth levels o.tree.rebuild rest := by
  cases o with
  | symbol name => cases levels <;> rfl
  | not o =>
    cases levels with
    | zero => rfl
    | succ levels =>
      have read := unary_tokens o levels rest
      rw [Operand.tokens, List.cons_append, unary, read, Operand.depth, within_succ]
      unfold within
      split <;> rfl
  | group d =>
    cases levels with
    | zero => rfl
    | succ levels =>
      have stops : Stops (Token.rparen :: rest) := ⟨by simp, by simp⟩
      have read := disjunction_within (chain_disjunction d levels _ stops (enough_fuel ..))
      rw [Operand.tokens, List.cons_append, List.append_assoc, List.singleton_append, unary, read,
        Operand.depth, within_succ, Except.monad_bind, within_bind]
      rfl

theorem chain_conjunction (c : Conjunction) (levels fuel : Nat) {rest : List Token}
    (stops : rest.head? ≠ some .and) (enough : c.tokens.length < fuel) :
    chain .and (unary levels) fuel (c.tokens ++ rest) =
      within c.depth levels (c.operands.map Tree.rebuild) rest := by
  cases fuel with
  | zero => exact absurd enough (Nat.not_lt_zero _)
  | succ fuel =>
    cases c with
    | last o => exact chain_last (unary_tokens o levels rest) stops
    | more o c =>
      have read := unary_tokens o levels (.and :: (c.tokens ++ rest))
      have shorter : c.tokens.length < fuel := by
        rw [Conjunction.tokens, List.length_append, List.length_cons] at enough
        omega
      rw [Conjunction.tokens, List.append_assoc, List.cons_append]
      exact chain_more read (chain_conjunction c levels fuel stops shorter)

theorem chain_disjunction (d : Disjunction) (levels fuel : Nat) {rest : List Token}
    (stops : Stops rest) (enough : d.tokens.length < fuel) :
    chain .or (conjunction (unary levels)) fuel (d.tokens ++ rest) =
      within d.depth levels (d.operands.map Tree.rebuild) rest := by
  cases fuel with
  | zero => exact absurd enough (Nat.not_lt_zero _)
  | succ fuel =>
    cases d with
    | last c =>
      have read := conjunction_within (chain_conjunction c levels _ stops.1 (enough_fuel ..))
      exact chain_last read stops.2
    | more c d =>
      have follows : (Token.or :: (d.tokens ++ rest)).head? ≠ some .and := by simp
      have read := conjunction_within (chain_conjunction c levels _ follows (enough_fuel ..))
      have shorter : d.tokens.length < fuel := by
        rw [Disjunction.tokens, List.length_append, List.length_cons] at enough
        omega
      rw [Disjunction.tokens, List.append_assoc, List.cons_append]
      exact chain_more read (chain_disjunction d levels fuel stops shorter)
end

theorem disjunction_tokens (d : Disjunction) (levels : Nat) {rest : List Token} (stops : Stops rest) :
    disjunction (unary levels) (d.tokens ++ rest) = within d.depth levels d.tree.rebuild rest :=
  disjunction_within (chain_disjunction d levels _ stops (enough_fuel ..))

/-! What is read has a derivation -/

/-- What a chain reads is derived from what its operands read, and no separator follows. -/
theorem chain_derives {δ ε : Type} {separator : Token} {operand : Reader Tree}
    (operandTokens : δ → List Token) (chainTokens : ε → List Token) {last : δ → ε} {more : δ → ε → ε}
    (hlast : ∀ o, chainTokens (last o) = operandTokens o)
    (hmore : ∀ o c, chainTokens (more o c) = operandTokens o ++ separator :: chainTokens c)
    (stops : List Token → Prop)
    (reads : ∀ tokens t rest, operand tokens = .ok (t, rest) →
      ∃ o, tokens = operandTokens o ++ rest ∧ stops rest)
    {fuel : Nat} {tokens rest : List Token} {ts : List Tree} (enough : tokens.length < fuel)
    (h : chain separator operand fuel tokens = .ok (ts, rest)) :
    ∃ c, tokens = chainTokens c ++ rest ∧ stops rest ∧ rest.head? ≠ some separator := by
  induction fuel generalizing tokens ts with
  | zero => exact absurd enough (Nat.not_lt_zero _)
  | succ fuel ih =>
    obtain ⟨t, after, ht, ⟨rfl, rfl, hrest⟩ | ⟨next, us, rfl, hus, rfl⟩⟩ := chain_succ h
    · obtain ⟨o, htokens, hstops⟩ := reads _ _ _ ht
      exact ⟨last o, by rw [hlast, htokens], hstops, hrest⟩
    · obtain ⟨o, rfl, -⟩ := reads _ _ _ ht
      have shorter : next.length < fuel := by
        rw [List.length_append, List.length_cons] at enough
        omega
      obtain ⟨c, rfl, hrest⟩ := ih shorter hus
      exact ⟨more o c, by rw [hmore, List.append_assoc, List.cons_append], hrest⟩

section reading
variable {operand : Reader Tree} {tokens rest : List Token} {t : Tree}

theorem conjunction_derives
    (reads : ∀ tokens t rest, operand tokens = .ok (t, rest) → ∃ o : Operand, tokens = o.tokens ++ rest)
    (h : conjunction operand tokens = .ok (t, rest)) :
    ∃ c : Conjunction, tokens = c.tokens ++ rest ∧ rest.head? ≠ some .and := by
  obtain ⟨⟨ts, _⟩, hts, h⟩ := Except.monad_bind_eq_ok.mp h
  cases h
  obtain ⟨c, htokens, -, hrest⟩ := chain_derives Operand.tokens Conjunction.tokens
    (fun _ => Conjunction.tokens.eq_1 _) (fun _ _ => Conjunction.tokens.eq_2 _ _) (fun _ => True)
    (fun tokens t rest h => (reads tokens t rest h).imp fun _ ho => ⟨ho, trivial⟩)
    (Nat.lt_succ_self _) hts
  exact ⟨c, htokens, hrest⟩

theorem disjunction_derives
    (reads : ∀ tokens t rest, operand tokens = .ok (t, rest) → ∃ o : Operand, tokens = o.tokens ++ rest)
    (h : disjunction operand tokens = .ok (t, rest)) : ∃ d : Disjunction, tokens = d.tokens ++ rest := by
  obtain ⟨⟨ts, _⟩, hts, h⟩ := Except.monad_bind_eq_ok.mp h
  cases h
  obtain ⟨d, htokens, -⟩ := chain_derives Conjunction.tokens Disjunction.tokens
    (fun _ => Disjunction.tokens.eq_1 _) (fun _ _ => Disjunction.tokens.eq_2 _ _)
    (fun rest => rest.head? ≠ some .and) (fun tokens t rest h => conjunction_derives reads h)
    (Nat.lt_succ_self _) hts
  exact ⟨d, htokens⟩

end reading

theorem closing_eq_ok {tokens rest : List Token} (h : closing tokens = .ok rest) :
    tokens = .rparen :: rest := by
  unfold closing at h
  split at h
  · cases h
    rfl
  · cases h
  · cases h

theorem unary_derives (levels : Nat) (tokens : List Token) (t : Tree) (rest : List Token)
    (h : unary levels tokens = .ok (t, rest)) : ∃ o : Operand, tokens = o.tokens ++ rest := by
  induction levels generalizing tokens t rest with
  | zero =>
    unfold unary at h
    split at h
    · cases h
      exact ⟨.symbol _, rfl⟩
    all_goals cases h
  | succ levels ih =>
    unfold unary at h
    split at h
    · cases h
      exact ⟨.symbol _, rfl⟩
    · obtain ⟨⟨u, _⟩, hu, h⟩ := Except.map_eq_ok.mp h
      cases h
      obtain ⟨o, rfl⟩ := ih _ _ _ hu
      exact ⟨.not o, rfl⟩
    · obtain ⟨⟨u, after⟩, hu, h⟩ := Except.monad_bind_eq_ok.mp h
      obtain ⟨_, hclosing, h⟩ := Except.monad_bind_eq_ok.mp h
      cases h
      obtain ⟨d, rfl⟩ := disjunction_derives ih hu
      obtain rfl : after = .rparen :: rest := closing_eq_ok hclosing
      exact ⟨.group d, by simp [Operand.tokens]⟩
    · cases h
    · cases h

/-! Trees of derivations -/

namespace Tree

theorem Flat.conjuncts {t : Tree} (h : t.Flat) : ∀ u ∈ t.conjuncts, u.conjuncts = [u] ∧ u.Flat := by
  cases h with
  | and two own h => exact fun u hu => ⟨own u hu, h u hu⟩
  | symbol name => simpa [Tree.conjuncts] using Flat.symbol name
  | not h => simpa [Tree.conjuncts] using Flat.not h
  | or two own h => simpa [Tree.conjuncts] using Flat.or two own h

theorem Flat.disjuncts {t : Tree} (h : t.Flat) : ∀ u ∈ t.disjuncts, u.disjuncts = [u] ∧ u.Flat := by
  cases h with
  | or two own h => exact fun u hu => ⟨own u hu, h u hu⟩
  | symbol name => simpa [Tree.disjuncts] using Flat.symbol name
  | not h => simpa [Tree.disjuncts] using Flat.not h
  | and two own h => simpa [Tree.disjuncts] using Flat.and two own h

/-- Splicing flat trees gives at least one operand, each of them flat. -/
theorem Flat.conj {ts : List Tree} (some : ts ≠ []) (h : ∀ t ∈ ts, t.Flat) : (conj ts).Flat := by
  have spliced : ∀ u ∈ ts.flatMap Tree.conjuncts, u.conjuncts = [u] ∧ u.Flat :=
    List.forall_mem_flatMap.mpr fun t ht => (h t ht).conjuncts
  have filled := (wide_flatMap some fun t ht => (h t ht).wide.conjuncts).1
  have each := fun u hu => (spliced u hu).2
  exact collapse_cases each fun hone =>
    .and (two_le_of_ne filled hone) (fun u hu => (spliced u hu).1) each

theorem Flat.disj {ts : List Tree} (some : ts ≠ []) (h : ∀ t ∈ ts, t.Flat) : (disj ts).Flat := by
  have spliced : ∀ u ∈ ts.flatMap Tree.disjuncts, u.disjuncts = [u] ∧ u.Flat :=
    List.forall_mem_flatMap.mpr fun t ht => (h t ht).disjuncts
  have filled := (wide_flatMap some fun t ht => (h t ht).wide.disjuncts).1
  have each := fun u hu => (spliced u hu).2
  exact collapse_cases each fun hone =>
    .or (two_le_of_ne filled hone) (fun u hu => (spliced u hu).1) each

end Tree

namespace Derivation

theorem Conjunction.operands_ne_nil (c : Conjunction) : c.operands ≠ [] := by
  cases c <;> simp [Conjunction.operands]

theorem Disjunction.operands_ne_nil (d : Disjunction) : d.operands ≠ [] := by
  cases d <;> simp [Disjunction.operands]

mutual
theorem Operand.flat_rebuild (o : Operand) : o.tree.rebuild.Flat := by
  cases o with
  | symbol name => exact .symbol name
  | not o => exact .not o.flat_rebuild
  | group d =>
    rw [Operand.tree, Tree.rebuild_or]
    exact .disj (by simpa using d.operands_ne_nil) (List.forall_mem_map.mpr d.flat_operands)

theorem Conjunction.flat_operands (c : Conjunction) : ∀ t ∈ c.operands, t.rebuild.Flat := by
  cases c with
  | last o => simpa [Conjunction.operands] using o.flat_rebuild
  | more o c => exact List.forall_mem_cons.mpr ⟨o.flat_rebuild, c.flat_operands⟩

theorem Disjunction.flat_operands (d : Disjunction) : ∀ t ∈ d.operands, t.rebuild.Flat := by
  have each (c : Conjunction) (h : ∀ t ∈ c.operands, t.rebuild.Flat) :
      (Tree.and c.operands).rebuild.Flat := by
    rw [Tree.rebuild_and]
    exact .conj (by simpa using c.operands_ne_nil) (List.forall_mem_map.mpr h)
  cases d with
  | last c => simpa [Disjunction.operands] using each c c.flat_operands
  | more c d => exact List.forall_mem_cons.mpr ⟨each c c.flat_operands, d.flat_operands⟩
end

theorem Disjunction.flat_rebuild (d : Disjunction) : d.tree.rebuild.Flat :=
  (Operand.group d).flat_rebuild

/-! Derived tokens do not end the input -/

mutual
theorem Operand.eof_notMem (o : Operand) : Token.eof ∉ o.tokens := by
  cases o with
  | symbol name => simp [Operand.tokens]
  | not o => simpa [Operand.tokens] using o.eof_notMem
  | group d => simpa [Operand.tokens] using d.eof_notMem

theorem Conjunction.eof_notMem (c : Conjunction) : Token.eof ∉ c.tokens := by
  cases c with
  | last o => exact o.eof_notMem
  | more o c => simpa [Conjunction.tokens] using ⟨o.eof_notMem, c.eof_notMem⟩

theorem Disjunction.eof_notMem (d : Disjunction) : Token.eof ∉ d.tokens := by
  cases d with
  | last c => exact c.eof_notMem
  | more c d => simpa [Disjunction.tokens] using ⟨c.eof_notMem, d.eof_notMem⟩
end

end Derivation

/-- The tokens of a text end with the end of the input, which stands nowhere else. -/
theorem tokens_of_scan {cs : List Char} {spans : List Spanned} (h : scan 0 cs = .ok spans) :
    ∃ tokens, spans.map Spanned.token = tokens ++ [.eof] ∧ Token.eof ∉ tokens := by
  obtain ⟨laid, isLaid, rfl⟩ := laid_of_scan (parted_nil cs) h
  refine ⟨laid.map Spanned.token, by simp, fun hmem => ?_⟩
  obtain ⟨s, hs, heof⟩ := List.mem_map.mp hmem
  obtain ⟨_, _, _, -, -, -, spells⟩ := isLaid.spelled hs
  exact spells.ne_eof heof

/-! Texts -/

theorem takeWhile_eof {tokens : List Token} (h : Token.eof ∉ tokens) (rest : List Token) :
    (tokens ++ .eof :: rest).takeWhile (· ≠ .eof) = tokens := by
  rw [List.takeWhile_append_of_pos fun token htoken => by simpa using ne_of_mem_of_not_mem htoken h,
    List.takeWhile_cons_of_neg (by simp), List.append_nil]

/-- Derived tokens are read as a whole where the input ends behind them. -/
theorem parseTokens_tokens (d : Disjunction) : parseTokens (d.tokens ++ [.eof]) =
    if d.depth ≤ maxDepth then .ok d.tree.rebuild else .error .tooDeep := by
  have stops : Stops [Token.eof] := ⟨by simp, by simp⟩
  rw [parseTokens, disjunction_tokens d maxDepth stops, Except.monad_bind, within_bind]
  rfl

theorem parseTokens_derives {tokens : List Token} {t : Tree} (hnot : Token.eof ∉ tokens)
    (h : parseTokens (tokens ++ [.eof]) = .ok t) : ∃ d : Disjunction, tokens = d.tokens := by
  obtain ⟨⟨t', rest⟩, ht, h⟩ := Except.monad_bind_eq_ok.mp h
  obtain ⟨d, hd⟩ := disjunction_derives (unary_derives maxDepth) ht
  refine ⟨d, ?_⟩
  rcases rest with _ | ⟨next, rest⟩
  · have ends : Token.eof ∈ d.tokens := by
      rw [List.append_nil] at hd
      simp [← hd]
    exact absurd ends d.eof_notMem
  · cases next with
    | eof => rw [← takeWhile_eof hnot [], hd, takeWhile_eof d.eof_notMem]
    | _ => cases h

/-- A text is read exactly if its tokens are derived by the grammar with no point under more than 64
parentheses and negations, as the tree of the derivation, rebuilt so that operators of one kind are spliced
and single operands stand alone. Tokens that are derived only deeper are refused for their depth. -/
theorem parse_eq_ok_iff_derivation (text : String) :
    (∀ t, parse text = .ok t ↔ ∃ spans, ∃ d : Disjunction, tokenize text = .ok spans ∧
      spans.map Spanned.token = d.tokens ++ [.eof] ∧ d.depth ≤ 64 ∧ t = d.tree.rebuild ∧ t.Flat) ∧
    ∀ spans, ∀ d : Disjunction, tokenize text = .ok spans →
      spans.map Spanned.token = d.tokens ++ [.eof] → 64 < d.depth → parse text = .error .tooDeep := by
  have derived {spans : List Spanned} {d : Disjunction} (hspans : tokenize text = .ok spans)
      (htokens : spans.map Spanned.token = d.tokens ++ [.eof]) :
      parse text = if d.depth ≤ 64 then .ok d.tree.rebuild else .error .tooDeep := by
    rw [parse, hspans]
    dsimp only
    rw [htokens]
    exact parseTokens_tokens d
  refine ⟨fun t => ⟨fun h => ?_, ?_⟩, ?_⟩
  · cases hspans : tokenize text with
    | error e => simp [parse, hspans] at h
    | ok spans =>
      obtain ⟨tokens, htokens, hnot⟩ := tokens_of_scan hspans
      have read : parseTokens (tokens ++ [.eof]) = .ok t := by
        rw [← htokens, ← h, parse, hspans]
      obtain ⟨d, rfl⟩ := parseTokens_derives hnot read
      rw [parseTokens_tokens] at read
      split at read
      · rename_i shallow
        cases read
        exact ⟨spans, d, rfl, htokens, shallow, rfl, d.flat_rebuild⟩
      · cases read
  · rintro ⟨spans, d, hspans, htokens, shallow, rfl, -⟩
    rw [derived hspans htokens, if_pos shallow]
  · intro spans d hspans htokens deep
    rw [derived hspans htokens, if_neg (Nat.not_le.mpr deep)]

/-- A symbol under so many negations. -/
def Derivation.negated : Nat → Operand
  | 0 => .symbol "a"
  | n + 1 => .not (negated n)

theorem Derivation.depth_negated (n : Nat) : (negated n).depth = n := by
  induction n with
  | zero => rfl
  | succ n ih => rw [negated, Operand.depth, ih]

theorem lexes_negated (n : Nat) :
    Lexes (List.replicate n '!' ++ ['a']) ((negated n).tokens ++ [.eof]) := by
  induction n with
  | zero => exact lexes_nil.token (by decide) (by decide)
  | succ n ih => exact ih.token (by decide) rfl

/-- A symbol may stand under 64 negations, and not under 65. -/
theorem parse_negated :
    let text (n : Nat) := String.ofList (List.replicate n '!' ++ ['a'])
    (∃ t, parse (text 64) = .ok t) ∧
    ∃ spans, ∃ d : Disjunction, tokenize (text 65) = .ok spans ∧
      spans.map Spanned.token = d.tokens ++ [.eof] ∧ 64 < d.depth ∧
      parse (text 65) = .error .tooDeep := by
  intro text
  have lexed (n : Nat) : ∃ spans, tokenize (text n) = .ok spans ∧
      spans.map Spanned.token = (Disjunction.last (.last (negated n))).tokens ++ [.eof] := by
    obtain ⟨spans, hspans, htokens⟩ := Except.map_eq_ok.mp (lexes_negated n 0)
    exact ⟨spans, by rwa [tokenize, String.toList_ofList], htokens⟩
  have depth (n : Nat) : (Disjunction.last (.last (negated n))).depth = n := depth_negated n
  constructor
  · obtain ⟨spans, hspans, htokens⟩ := lexed 64
    exact ⟨_, ((parse_eq_ok_iff_derivation (text 64)).1 _).mpr ⟨spans, _, hspans, htokens,
      Nat.le_of_eq (depth 64), rfl, Disjunction.flat_rebuild _⟩⟩
  · obtain ⟨spans, hspans, htokens⟩ := lexed 65
    have deep : 64 < (Disjunction.last (.last (negated 65))).depth := by rw [depth 65]; decide
    exact ⟨spans, _, hspans, htokens, deep,
      (parse_eq_ok_iff_derivation (text 65)).2 spans _ hspans htokens deep⟩

end RecordGraph.Algebra
