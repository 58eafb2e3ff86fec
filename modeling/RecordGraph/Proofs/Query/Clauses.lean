import RecordGraph.Proofs.Algebra.Compile
import RecordGraph.Proofs.Algebra.RoundTrip
import RecordGraph.Proofs.Query.Leaves

/-!
Predicates as parameters. A predicate in conjunctive or disjunctive form is written as an algebra over
tags and a tagged clause for each comparison in it, and is assembled again from these.
-/
namespace RecordGraph
open Query (algebraOf algebraOfAll clauseTag)

/-! Tags -/

theorem toList_clauseTag (i : Nat) : (clauseTag i).toList = 't' :: Nat.toDigits 10 i := by
  rw [clauseTag, String.toList_append, Nat.repr_eq_ofList_toDigits]
  simp

theorem clauseTag_inj {i j : Nat} : clauseTag i = clauseTag j ↔ i = j := by
  constructor
  · intro h
    rw [← String.toList_inj, toList_clauseTag, toList_clauseTag, List.cons.injEq] at h
    rw [← Nat.ofDigitChars_ten_toDigits (n := i), h.2, Nat.ofDigitChars_ten_toDigits]
  · exact congrArg clauseTag

theorem isAlphanum_clauseTag {i : Nat} : ∀ c ∈ (clauseTag i).toList, c.isAlphanum := by
  rw [toList_clauseTag]
  refine List.forall_mem_cons.mpr ⟨by decide, fun c hc => ?_⟩
  have hdigit : c.isDigit := Nat.isDigit_of_mem_toDigits (by decide) (by decide) hc
  simp [Char.isAlphanum, hdigit]

/-- A tag is read as a symbol. -/
theorem isWord_clauseTag (i : Nat) : Algebra.IsWord (clauseTag i) := by
  have hhead : (Text.lowerAscii (clauseTag i)).toList.head? = some 't' := by
    rw [Text.lowerAscii, String.toList_ofList, toList_clauseTag]
    rfl
  refine ⟨fun h => ?_, fun c hc => ?_, ?_⟩
  · have := toList_clauseTag i
    simp [h] at this
  · simp [Algebra.isWordChar, isAlphanum_clauseTag c hc]
  · rw [Algebra.Token.ofWord]
    split
    · rename_i h
      rw [h] at hhead
      cases hhead
    · rename_i h
      rw [h] at hhead
      cases hhead
    · rename_i h
      rw [h] at hhead
      cases hhead
    · rfl

/-! Predicates that parameters can write -/

namespace Query.Comparison

def predicate (c : Comparison) : Value := .node c.op (.arr [.str c.field, c.value])

/-- A comparison that a parameter can write. -/
structure IsClause (c : Comparison) : Prop where
  op : WhereParam.isComparison c.op
  field : isFieldPath c.field
  value : c.value.IsLeaf

theorem IsClause.not_reserved {c : Comparison} (h : c.IsClause) :
    WhereParam.reservedTags.contains c.op = false := by
  have hop := h.op
  simp only [WhereParam.isComparison, Bool.and_eq_true, Bool.not_eq_true'] at hop
  simp only [WhereParam.reservedTags]
  simp at hop ⊢
  tauto

theorem IsClause.ofPredicate? {c : Comparison} (h : c.IsClause) :
    Comparison.ofPredicate? c.predicate = some c := by
  rw [predicate, Value.node, Comparison.ofPredicate?, h.not_reserved, h.field]
  rfl

end Query.Comparison

namespace Value

/-- One clause. -/
def IsClause (v : Value) : Prop := ∃ c : Query.Comparison, c.IsClause ∧ v = c.predicate

/-- A clause or a negated clause. -/
def IsLiteral (v : Value) : Prop := v.IsClause ∨ ∃ u, IsClause u ∧ v = .node "not" u

/-- What satisfies `P`, or an operator over at least two values that do. -/
def Joined (op : String) (P : Value → Prop) (v : Value) : Prop :=
  P v ∨ ∃ vs, 2 ≤ vs.length ∧ (∀ u ∈ vs, P u) ∧ v = .node op (.arr vs)

/-- Clauses in conjunctive or in disjunctive form. -/
def IsFilter (v : Value) : Prop :=
  Joined "and" (Joined "or" IsLiteral) v ∨ Joined "or" (Joined "and" IsLiteral) v

end Value

/-! Algebras over tags -/

/-- Comparisons under their tags, from the first free one. -/
def tagged (index : Nat) : List Query.Comparison → Entries Value
  | [] => []
  | c :: cs => (clauseTag index, c.predicate) :: tagged (index + 1) cs

theorem tagged_append (index : Nat) (cs ds : List Query.Comparison) :
    tagged index (cs ++ ds) = tagged index cs ++ tagged (index + cs.length) ds := by
  induction cs generalizing index with
  | nil => rfl
  | cons c cs ih =>
    rw [List.cons_append, tagged, ih, tagged, List.cons_append, List.length_cons, Nat.add_right_comm,
      Nat.add_assoc]

/-- The algebra of a predicate: its symbols are the tags of its clauses, and the predicate of the tree
over these clauses is the predicate itself. -/
structure Spells (index : Nat) (v : Value) (t : Algebra.Tree) (cs : List Query.Comparison) : Prop where
  algebra : algebraOf index v = some (t, cs)
  names : t.names = (tagged index cs).keys
  clauses : ∀ c ∈ cs, c.IsClause
  predicate : ∀ table : Entries Value, (∀ e ∈ tagged index cs, table.get? e.1 = some e.2) →
    t.predicate table = v

theorem algebraOf_clause {c : Query.Comparison} (h : c.IsClause) (index : Nat) :
    Spells index c.predicate (.symbol (clauseTag index)) [c] := by
  refine ⟨?_, rfl, by simpa using h, fun table htable => ?_⟩
  · have hc := h.ofPredicate?
    obtain ⟨hnot, hand, hor⟩ : c.op ≠ "not" ∧ c.op ≠ "and" ∧ c.op ≠ "or" := by
      have := h.not_reserved
      simp only [WhereParam.reservedTags] at this
      simp at this
      tauto
    rw [Query.Comparison.predicate, Value.node] at hc ⊢
    rw [algebraOf, hc]
    · exact hnot
    · exact fun _ _ _ h => absurd h hand
    · exact fun _ _ _ h => absurd h hor
  · have := htable (clauseTag index, c.predicate) (by simp [tagged])
    rw [Algebra.Tree.predicate, this]
    rfl

/-- Operators are no clauses. -/
theorem ofPredicate?_operator {op : String} (h : op ∈ WhereParam.reservedTags) (v : Value) :
    Query.Comparison.ofPredicate? (.node op v) = none := by
  rw [Value.node, Query.Comparison.ofPredicate?.eq_def]
  split
  · rename_i heq
    cases heq
    simp [h]
  · rfl

theorem Spells.not {index : Nat} {v : Value} {t : Algebra.Tree} {cs : List Query.Comparison}
    (h : Spells index v t cs) : Spells index (.node "not" v) (.not t) cs := by
  have hnone : Query.Comparison.ofPredicate? (.node "not" v) = none :=
    ofPredicate?_operator (by decide) v
  refine ⟨?_, h.names, h.clauses, fun table htable => ?_⟩
  · rw [Value.node] at hnone ⊢
    rw [algebraOf, hnone, h.algebra]
    rfl
  · rw [Algebra.Tree.predicate, h.predicate table htable]

/-- Operands one after the other, the tags of each after those of the ones before it. -/
theorem spells_all {P : Value → Prop} {p : Algebra.Tree → Prop} {vs : List Value}
    (h : ∀ v, P v → ∀ index, ∃ t cs, Spells index v t cs ∧ p t) (hvs : ∀ v ∈ vs, P v) (index : Nat) :
    ∃ ts cs, algebraOfAll index vs = some (ts, cs) ∧ ts.length = vs.length ∧ (∀ t ∈ ts, p t) ∧
      ts.flatMap Algebra.Tree.names = (tagged index cs).keys ∧ (∀ c ∈ cs, c.IsClause) ∧
      ∀ table : Entries Value, (∀ e ∈ tagged index cs, table.get? e.1 = some e.2) →
        ts.map (Algebra.Tree.predicate table) = vs := by
  induction vs generalizing index with
  | nil => exact ⟨[], [], rfl, rfl, by simp, rfl, by simp, fun _ _ => rfl⟩
  | cons v vs ih =>
    rw [List.forall_mem_cons] at hvs
    obtain ⟨t, cs, ht, hp⟩ := h v hvs.1 index
    obtain ⟨ts, ds, hts, hlength, hps, hnames, hclauses, hpredicate⟩ := ih hvs.2 (index + cs.length)
    refine ⟨t :: ts, cs ++ ds, ?_, by simp [hlength], List.forall_mem_cons.mpr ⟨hp, hps⟩, ?_, ?_, ?_⟩
    · rw [algebraOfAll, ht.algebra]
      simp [hts]
    · rw [List.flatMap_cons, ht.names, hnames, tagged_append, Entries.keys, Entries.keys, Entries.keys,
        List.map_append]
    · exact List.forall_mem_append.mpr ⟨ht.clauses, hclauses⟩
    · intro table htable
      rw [tagged_append, List.forall_mem_append] at htable
      rw [List.map_cons, ht.predicate table htable.1, hpredicate table htable.2]

/-- What a normal form spells with trees of a kind, an operator over it spells with trees of this kind
or with the operator over them. -/
theorem spells_joined {op : String} {build : List Algebra.Tree → Algebra.Tree}
    (hop : op = "and" ∧ build = .and ∨ op = "or" ∧ build = .or) {P : Value → Prop}
    {p : Algebra.Tree → Prop} (h : ∀ v, P v → ∀ index, ∃ t cs, Spells index v t cs ∧ p t) (v : Value)
    (hv : v.Joined op P) (index : Nat) :
    ∃ t cs, Spells index v t cs ∧ (p t ∨ ∃ ts, 2 ≤ ts.length ∧ (∀ t ∈ ts, p t) ∧ t = build ts) := by
  rcases hv with hv | ⟨vs, two, hvs, rfl⟩
  · obtain ⟨t, cs, ht, hp⟩ := h v hv index
    exact ⟨t, cs, ht, .inl hp⟩
  · obtain ⟨ts, cs, hts, hlength, hps, hnames, hclauses, hpredicate⟩ := spells_all h hvs index
    refine ⟨build ts, cs, ⟨?_, ?_, hclauses, fun table htable => ?_⟩, .inr ⟨ts, by omega, hps, rfl⟩⟩
    · have hnone : Query.Comparison.ofPredicate? (.node op (.arr vs)) = none := by
        apply ofPredicate?_operator
        rcases hop with ⟨rfl, -⟩ | ⟨rfl, -⟩ <;> decide
      match vs, two with
      | x :: y :: vs, _ =>
        rw [Value.node] at hnone ⊢
        rcases hop with ⟨rfl, rfl⟩ | ⟨rfl, rfl⟩ <;> rw [algebraOf, hnone, hts] <;> rfl
    · rcases hop with ⟨-, rfl⟩ | ⟨-, rfl⟩ <;> simpa using hnames
    · rcases hop with ⟨rfl, rfl⟩ | ⟨rfl, rfl⟩
      · rw [Algebra.Tree.predicate_and, hpredicate table htable]
      · rw [Algebra.Tree.predicate_or, hpredicate table htable]

theorem spells_literal (v : Value) (hv : v.IsLiteral) (index : Nat) :
    ∃ t cs, Spells index v t cs ∧ t.Wide ∧ t.isLiteral := by
  rcases hv with ⟨c, hc, rfl⟩ | ⟨_, ⟨c, hc, rfl⟩, rfl⟩
  · exact ⟨_, _, algebraOf_clause hc index, .symbol _, rfl⟩
  · exact ⟨_, _, (algebraOf_clause hc index).not, .not (.symbol _), rfl⟩

/-- A normal form spells a tree in normal form. -/
theorem spells_filter {v : Value} (hv : v.IsFilter) (index : Nat) :
    ∃ t cs, Spells index v t cs ∧ t.Wide ∧ t.IsNormal := by
  have all {p q : Algebra.Tree → Prop} (h : ∀ t, p t → q t) {ts : List Algebra.Tree}
      (hts : ∀ t ∈ ts, p t) : ∀ t ∈ ts, q t := fun t ht => h t (hts t ht)
  rcases hv with hv | hv
  · have hclause (v : Value) (hv : v.Joined "or" Value.IsLiteral) (index : Nat) :
        ∃ t cs, Spells index v t cs ∧ t.Wide ∧ t.isClause := by
      obtain ⟨t, cs, ht, ⟨hw, hl⟩ | ⟨ts, two, hts, rfl⟩⟩ :=
        spells_joined (.inr ⟨rfl, rfl⟩) spells_literal v hv index
      · exact ⟨t, cs, ht, hw, Algebra.Tree.isClause_of_isLiteral hl⟩
      · exact ⟨_, cs, ht, .or two (all (fun _ => And.left) hts),
          List.all_eq_true.mpr (all (fun _ => And.right) hts)⟩
    obtain ⟨t, cs, ht, ⟨hw, hc⟩ | ⟨ts, two, hts, rfl⟩⟩ :=
      spells_joined (.inl ⟨rfl, rfl⟩) hclause v hv index
    · exact ⟨t, cs, ht, hw, .inl (Algebra.Tree.isCnf_of_isClause hc)⟩
    · exact ⟨_, cs, ht, .and two (all (fun _ => And.left) hts),
        .inl (List.all_eq_true.mpr (all (fun _ => And.right) hts))⟩
  · have hterm (v : Value) (hv : v.Joined "and" Value.IsLiteral) (index : Nat) :
        ∃ t cs, Spells index v t cs ∧ t.Wide ∧ t.isTerm := by
      obtain ⟨t, cs, ht, ⟨hw, hl⟩ | ⟨ts, two, hts, rfl⟩⟩ :=
        spells_joined (.inl ⟨rfl, rfl⟩) spells_literal v hv index
      · exact ⟨t, cs, ht, hw, Algebra.Tree.isTerm_of_isLiteral hl⟩
      · exact ⟨_, cs, ht, .and two (all (fun _ => And.left) hts),
          List.all_eq_true.mpr (all (fun _ => And.right) hts)⟩
    obtain ⟨t, cs, ht, ⟨hw, hc⟩ | ⟨ts, two, hts, rfl⟩⟩ :=
      spells_joined (.inr ⟨rfl, rfl⟩) hterm v hv index
    · exact ⟨t, cs, ht, hw, .inr (Algebra.Tree.isDnf_of_isTerm hc)⟩
    · exact ⟨_, cs, ht, .or two (all (fun _ => And.left) hts),
        .inr (List.all_eq_true.mpr (all (fun _ => And.right) hts))⟩

/-! Parameters of a predicate -/

/-- The subkeys and the values of the clauses, each under its tag. -/
def clauseParams (index : Nat) : List Query.Comparison → List (List String × List String)
  | [] => []
  | c :: cs => ([c.field, c.op, clauseTag index], c.value.texts) :: clauseParams (index + 1) cs

/-- The subkeys and the values of the parameters that a predicate is written as. -/
def filterParams (v : Value) : List (List String × List String) :=
  match Query.Comparison.ofPredicate? v with
  | some c => [([c.field, c.op], c.value.texts)]
  | none =>
    match algebraOf 0 v with
    | some (t, cs) => ([], [t.text]) :: clauseParams 0 cs
    | none => []

/-- A predicate that is no clause is an operator. -/
theorem ofPredicate?_filter {v : Value} (hv : v.IsFilter) :
    v.IsClause ∨ Query.Comparison.ofPredicate? v = none := by
  have hliteral {v : Value} (hv : v.IsLiteral) : v.IsClause ∨ Query.Comparison.ofPredicate? v = none := by
    rcases hv with hv | ⟨u, -, rfl⟩
    · exact .inl hv
    · exact .inr (ofPredicate?_operator (by decide) u)
  have hjoined {op : String} (hop : op ∈ WhereParam.reservedTags) {P : Value → Prop}
      (h : ∀ {v : Value}, P v → v.IsClause ∨ Query.Comparison.ofPredicate? v = none) {v : Value}
      (hv : v.Joined op P) : v.IsClause ∨ Query.Comparison.ofPredicate? v = none := by
    rcases hv with hv | ⟨vs, -, -, rfl⟩
    · exact h hv
    · exact .inr (ofPredicate?_operator hop _)
  rcases hv with hv | hv
  · exact hjoined (by decide) (hjoined (by decide) hliteral) hv
  · exact hjoined (by decide) (hjoined (by decide) hliteral) hv

/-- The pairs of parameters: each value under the key that the subkeys make. -/
def paramPairs (key : String) (ps : List (List String × List String)) : List (String × String) :=
  ps.flatMap fun p => p.2.map (Text.join ":" (key :: p.1), ·)

theorem writeClauses_eq {cs : List Query.Comparison} (h : ∀ c ∈ cs, c.IsClause) (key : String)
    (index : Nat) : Query.writeClauses key index cs = some (paramPairs key (clauseParams index cs)) := by
  induction cs generalizing index with
  | nil => rfl
  | cons c cs ih =>
    rw [List.forall_mem_cons] at h
    have hkey : Text.join ":" [key, c.field, c.op, clauseTag index] =
        key ++ ":" ++ c.field ++ ":" ++ c.op ++ ":" ++ clauseTag index := by
      simp [Text.join, String.append_assoc]
    rw [Query.writeClauses, h.1.value.read.2.2.2, ih h.2, clauseParams, ← hkey]
    rfl

theorem writeFilter_eq {v : Value} (hv : v.IsFilter) (key : String) :
    Query.writeFilter key v = some (paramPairs key (filterParams v)) := by
  rcases ofPredicate?_filter hv with ⟨c, hc, rfl⟩ | hnone
  · have hkey : Text.join ":" [key, c.field, c.op] = key ++ ":" ++ c.field ++ ":" ++ c.op := by
      simp [Text.join, String.append_assoc]
    rw [Query.writeFilter, filterParams, hc.ofPredicate?]
    dsimp only
    rw [hc.value.read.2.2.2, paramPairs, List.flatMap_singleton, hkey]
  · obtain ⟨t, cs, ht, -, -⟩ := spells_filter hv 0
    rw [Query.writeFilter, filterParams, hnone, ht.algebra]
    dsimp only
    rw [Option.bind_eq_bind, Option.bind_some, writeClauses_eq ht.clauses, paramPairs, paramPairs,
      List.flatMap_cons]
    simp [Text.join]
    rfl

/-- The parameters as the reader of a level meets them, under whatever keys. -/
def whereParams (key : List String → String) (ps : List (List String × List String)) : List WhereParam :=
  ps.map fun p => ⟨key p.1, p.1, p.2⟩

theorem not_reserved_clauseTag (index : Nat) :
    WhereParam.reservedTags.contains (clauseTag index) = false := by
  rw [List.contains_eq_mem, decide_eq_false_iff_not]
  intro h
  simp only [WhereParam.reservedTags, List.mem_cons, List.not_mem_nil, or_false] at h
  have hchars := toList_clauseTag index
  rcases h with h | h | h <;> rw [h] at hchars <;> simp at hchars

/-- A comparison is read from its parameter. -/
theorem clause_eq {c : Query.Comparison} (h : c.IsClause) (key : String) (segments : List String)
    (tag : String) : WhereParam.clause ⟨key, segments, c.value.texts⟩ c.field c.op tag =
      .ok (.clause tag c.predicate) := by
  rw [WhereParam.clause, if_pos h.op, h.value.read.2.2.1]
  rfl

theorem add_clause {found : WhereClauses} {p : WhereParam} {index : Nat} {tag : String}
    {predicate : Value} (below : p.segments ≠ []) (read : p.read index = .ok (.clause tag predicate))
    (free : found.clauses.lookup tag = none) :
    found.add p index = .ok { found with clauses := found.clauses ++ [(tag, predicate)] } := by
  rw [WhereClauses.add, if_neg (by simp [below]), read]
  simp [Except.monad_bind, free]
  rfl

/-- Clauses are collected under their tags. -/
theorem collect_clauses {cs : List Query.Comparison} (h : ∀ c ∈ cs, c.IsClause)
    (key : List String → String) (index position : Nat) (found : WhereClauses)
    (free : ∀ i, index ≤ i → found.clauses.lookup (clauseTag i) = none) :
    WhereClauses.collect (whereParams key (clauseParams index cs)) position found =
      .ok { found with clauses := found.clauses ++ tagged index cs } := by
  induction cs generalizing index position found with
  | nil => simp [whereParams, clauseParams, WhereClauses.collect, tagged]
  | cons c cs ih =>
    rw [List.forall_mem_cons] at h
    have hread : WhereParam.read ⟨key [c.field, c.op, clauseTag index],
        [c.field, c.op, clauseTag index], c.value.texts⟩ position =
        .ok (.clause (clauseTag index) c.predicate) := by
      simp only [WhereParam.read, not_reserved_clauseTag]
      exact clause_eq h.1 _ _ _
    have hadd := add_clause (by simp) hread (free index (Nat.le_refl _))
    rw [clauseParams, whereParams, List.map_cons, WhereClauses.collect, hadd, Except.monad_bind,
      Except.ok_bind, ← whereParams, ih h.2]
    · simp [tagged]
    · intro i hi
      have hne : clauseTag i ≠ clauseTag index := fun heq => by
        have := clauseTag_inj.mp heq
        omega
      rw [List.lookup_append, free i (by omega), List.lookup_cons, beq_false_of_ne hne]
      rfl

theorem keys_tagged (index : Nat) (cs : List Query.Comparison) :
    (tagged index cs).keys = (List.range' index cs.length).map clauseTag := by
  induction cs generalizing index with
  | nil => rfl
  | cons c cs ih =>
    rw [List.length_cons, List.range'_succ, List.map_cons, ← ih]
    rfl

/-- The table of the clauses holds each of them under its tag. -/
theorem get?_tagged {cs : List Query.Comparison} {index : Nat} {e : String × Value}
    (he : e ∈ tagged index cs) : (Entries.ofList (tagged index cs)).get? e.1 = some e.2 := by
  have nodup : ((tagged index cs).map Prod.fst).Nodup := by
    have hkeys := keys_tagged index cs
    rw [Entries.keys] at hkeys
    rw [hkeys]
    exact (List.nodup_range').map fun i j h => clauseTag_inj.mp h
  exact Entries.get?_ofList nodup he

/-- An algebra is compiled over the clauses that are found with it, unless it is a bare word. -/
theorem predicate_algebra {text : String} (hand : text ≠ "and") (hor : text ≠ "or")
    {clauses : List (String × Value)} {v : Value} :
    WhereClauses.predicate ⟨some text, clauses⟩ = .ok v ↔
      Algebra.compile text (Entries.ofList clauses) = .ok v := by
  unfold WhereClauses.predicate
  split
  · rename_i heq
    cases heq
  · rename_i heq
    exact absurd (Option.some.inj heq) hand
  · rename_i heq
    exact absurd (Option.some.inj heq) hor
  · rename_i heq
    cases heq
    cases Algebra.compile text (Entries.ofList clauses) <;> simp

/-- An operator alone is no algebra. -/
theorem parse_and : Algebra.parse "and" = .error (.unexpectedToken .and "symbol or (") := by
  have htokens : (Algebra.tokenize "and").toOption.map (List.map Algebra.Spanned.token) =
      some [.and, .eof] := by decide +kernel
  exact (Algebra.parse_of_tokens htokens).trans rfl

theorem parse_or : Algebra.parse "or" = .error (.unexpectedToken .or "symbol or (") := by
  have htokens : (Algebra.tokenize "or").toOption.map (List.map Algebra.Spanned.token) =
      some [.or, .eof] := by decide +kernel
  exact (Algebra.parse_of_tokens htokens).trans rfl

/-- The algebra of a normal form is read back from its text. -/
theorem spells_parse {v : Value} (hv : v.IsFilter) :
    ∃ t cs, Spells 0 v t cs ∧ Algebra.parse t.text = .ok t ∧ t.IsNormal := by
  obtain ⟨t, cs, ht, hw, hn⟩ := spells_filter hv 0
  have words : ∀ name ∈ t.names, Algebra.IsWord name := by
    rw [ht.names, keys_tagged]
    simpa using fun i _ => isWord_clauseTag i
  have shallow : t.nesting ≤ Algebra.maxDepth :=
    Nat.le_trans (Algebra.Tree.nesting_of_isNormal hn) (by decide)
  have read := (Algebra.Tree.flat_of_isNormal hw hn).parse_text words
  rw [if_pos shallow] at read
  exact ⟨t, cs, ht, read, hn⟩

/-- The parameters of a predicate assemble to the predicate. -/
theorem assembleWhere_filterParams {v : Value} (hv : v.IsFilter) (key : List String → String) :
    assembleWhere (whereParams key (filterParams v)) = .ok v := by
  rcases ofPredicate?_filter hv with ⟨c, hc, rfl⟩ | hnone
  · have hadd : WhereClauses.add {} ⟨key [c.field, c.op], [c.field, c.op], c.value.texts⟩ 0 =
        .ok ⟨none, [((0 : Nat).repr, c.predicate)]⟩ :=
      add_clause (by simp) (clause_eq hc _ _ _) rfl
    rw [filterParams, hc.ofPredicate?]
    dsimp only
    rw [assembleWhere, whereParams, List.map_singleton, WhereClauses.collect, hadd]
    rfl
  · obtain ⟨t, cs, ht, hparse, hn⟩ := spells_parse hv
    have hcompile : Algebra.compile t.text (Entries.ofList (tagged 0 cs)) = .ok v := by
      refine Algebra.compile_eq_ok.mpr ⟨t, hparse, fun name hname => ?_, ?_⟩
      · rw [ht.names] at hname
        obtain ⟨e, he, rfl⟩ := List.mem_map.mp hname
        rw [get?_tagged he]
        rfl
      · rw [hn.normal_eq, ht.predicate _ fun e he => get?_tagged he]
    have hadd : WhereClauses.add {} ⟨key [], [], [t.text]⟩ 0 = .ok ⟨some t.text, []⟩ := rfl
    have hcollect := collect_clauses ht.clauses key 0 1 ⟨some t.text, []⟩ fun _ _ => rfl
    rw [filterParams, hnone, ht.algebra]
    dsimp only
    rw [assembleWhere, whereParams, List.map_cons, WhereClauses.collect, hadd, Except.monad_bind,
      Except.monad_bind, Except.ok_bind, ← whereParams, hcollect]
    refine (predicate_algebra ?_ ?_).mpr hcompile
    · rintro htext
      cases hparse.symm.trans (htext ▸ parse_and)
    · rintro htext
      cases hparse.symm.trans (htext ▸ parse_or)

/-! Keys of the parameters -/

theorem colon_not_mem_op {op : String} (h : WhereParam.isComparison op) : ':' ∉ op.toList := by
  have hmethod : Expr.isMethod op := by
    rw [WhereParam.isComparison, Bool.and_eq_true] at h
    exact h.1
  clear h
  unfold Expr.isMethod Expr.Method.ofName? at hmethod
  split at hmethod
  all_goals first
    | decide
    | cases hmethod

theorem colon_not_mem_field {field : String} (h : Query.isFieldPath field) : ':' ∉ field.toList := by
  simp only [Query.isFieldPath, Bool.and_eq_true, String.all_bool_eq, List.all_eq_true] at h
  intro hcolon
  cases h.2 ':' hcolon

theorem colon_not_mem_tag (index : Nat) : ':' ∉ (clauseTag index).toList :=
  fun h => by cases isAlphanum_clauseTag ':' h

/-- What the key and the values of a parameter of a predicate are made of. -/
structure WritesClause (p : List String × List String) : Prop where
  subkeys : ∀ s ∈ p.1, ':' ∉ s.toList
  values : p.2 ≠ []
  texts : ∀ s ∈ p.2, s ≠ ""

theorem writesClause {c : Query.Comparison} (h : c.IsClause) {tags : List String}
    (htags : ∀ s ∈ tags, ':' ∉ s.toList) : WritesClause (c.field :: c.op :: tags, c.value.texts) := by
  obtain ⟨hvalues, htexts, -⟩ := h.value.read
  refine ⟨?_, hvalues, htexts⟩
  simp only [List.forall_mem_cons]
  exact ⟨colon_not_mem_field h.field, colon_not_mem_op h.op, htags⟩

theorem mem_clauseParams {cs : List Query.Comparison} (h : ∀ c ∈ cs, c.IsClause) {index : Nat}
    {p : List String × List String} (hp : p ∈ clauseParams index cs) :
    WritesClause p ∧ ∃ c ∈ cs, ∃ i, index ≤ i ∧ p.1 = [c.field, c.op, clauseTag i] := by
  induction cs generalizing index with
  | nil => cases hp
  | cons c cs ih =>
    rw [List.forall_mem_cons] at h
    rcases List.mem_cons.mp hp with rfl | hp
    · exact ⟨writesClause h.1 (by simpa using colon_not_mem_tag index), c, List.mem_cons_self, index,
        Nat.le_refl _, rfl⟩
    · obtain ⟨hwrites, d, hd, i, hi, hsubkeys⟩ := ih h.2 hp
      exact ⟨hwrites, d, List.mem_cons_of_mem _ hd, i, by omega, hsubkeys⟩

theorem nodup_clauseParams {cs : List Query.Comparison} (h : ∀ c ∈ cs, c.IsClause) (index : Nat) :
    ((clauseParams index cs).map Prod.fst).Nodup := by
  induction cs generalizing index with
  | nil => exact .nil
  | cons c cs ih =>
    rw [List.forall_mem_cons] at h
    refine List.nodup_cons.mpr ⟨fun hmem => ?_, ih h.2 (index + 1)⟩
    obtain ⟨p, hp, hsubkeys⟩ := List.mem_map.mp hmem
    obtain ⟨-, d, -, i, hi, htag⟩ := mem_clauseParams h.2 hp
    rw [htag] at hsubkeys
    simp only [List.cons.injEq, clauseTag_inj] at hsubkeys
    omega

theorem text_ne_empty {t : Algebra.Tree} (h : Algebra.parse t.text = .ok t) : t.text ≠ "" := by
  have hempty : Algebra.parse "" = .error .unexpectedEof := by
    have htokens : (Algebra.tokenize "").toOption.map (List.map Algebra.Spanned.token) =
        some [.eof] := by decide +kernel
    exact (Algebra.parse_of_tokens htokens).trans rfl
  intro htext
  cases h.symm.trans (htext ▸ hempty)

/-- The parameters of a predicate differ in their subkeys. -/
theorem filterParams_keys {v : Value} (hv : v.IsFilter) :
    filterParams v ≠ [] ∧ ((filterParams v).map Prod.fst).Nodup ∧
      ∀ p ∈ filterParams v, WritesClause p := by
  rcases ofPredicate?_filter hv with ⟨c, hc, rfl⟩ | hnone
  · rw [filterParams, hc.ofPredicate?]
    have hwrites : WritesClause ([c.field, c.op], c.value.texts) := writesClause hc (List.forall_mem_nil _)
    exact ⟨by simp, by simp, by simpa using hwrites⟩
  · obtain ⟨t, cs, ht, hparse, -⟩ := spells_parse hv
    rw [filterParams, hnone, ht.algebra]
    refine ⟨by simp, ?_, List.forall_mem_cons.mpr ⟨?_, fun p hp => (mem_clauseParams ht.clauses hp).1⟩⟩
    · refine List.nodup_cons.mpr ⟨fun hmem => ?_, nodup_clauseParams ht.clauses 0⟩
      obtain ⟨p, hp, hsubkeys⟩ := List.mem_map.mp hmem
      obtain ⟨-, d, -, i, -, htag⟩ := mem_clauseParams ht.clauses hp
      rw [htag] at hsubkeys
      cases hsubkeys
    · exact ⟨by simp, by simp, by simpa using text_ne_empty hparse⟩

end RecordGraph
