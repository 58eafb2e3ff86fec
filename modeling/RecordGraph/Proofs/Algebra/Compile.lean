import RecordGraph.Proofs.Algebra.Conjunctive
import RecordGraph.Proofs.Entries
import RecordGraph.Proofs.Expr.Eval

/-!
Predicates built from boolean texts. The predicate of a normal form is the one that a builder makes
which decides anew at every node how to read it, and it evaluates to what the parsed tree means.
-/
namespace RecordGraph.Algebra

namespace Tree

/-- The operands a builder takes from a tree: of the two normal forms the tree is in, those of the
one with more, and of the conjunctive one if they have as many. -/
def chosen (t : Tree) : List Tree :=
  if t.isCnf then
    if t.isDnf && t.conjuncts.length < t.disjuncts.length then t.disjuncts else t.conjuncts
  else if t.isDnf then t.disjuncts
  else match t with
    | .and ts => ts
    | .or ts => ts
    | t => [t]

/-- What a builder makes of a tree which brings every node into normal form before it reads it, and
which makes no operator without operands. -/
inductive Builds (table : Entries Value) : Tree → Value → Prop
  | symbol {t : Tree} {name : String} (root : t.normal = .symbol name) :
    Builds table t ((table.get? name).getD .null)
  | not {t u : Tree} {v : Value} (root : t.normal = .not u) (operand : Builds table u v) :
    Builds table t (.node "not" v)
  | and {t : Tree} {ts : List Tree} {vs : List Value} (root : t.normal = .and ts)
    (operands : List.Forall₂ (Builds table) t.normal.chosen vs) (some : vs ≠ []) :
    Builds table t (.node "and" (.arr vs))
  | or {t : Tree} {ts : List Tree} {vs : List Value} (root : t.normal = .or ts)
    (operands : List.Forall₂ (Builds table) t.normal.chosen vs) (some : vs ≠ []) :
    Builds table t (.node "or" (.arr vs))

theorem predicates_eq (table : Entries Value) (ts : List Tree) :
    predicates table ts = ts.map (predicate table) := by
  induction ts with
  | nil => rfl
  | cons t ts ih => rw [predicates, ih, List.map_cons]

theorem predicate_and (table : Entries Value) (ts : List Tree) :
    predicate table (.and ts) = .node "and" (.arr (ts.map (predicate table))) := by
  rw [predicate, predicates_eq]

theorem predicate_or (table : Entries Value) (ts : List Tree) :
    predicate table (.or ts) = .node "or" (.arr (ts.map (predicate table))) := by
  rw [predicate, predicates_eq]

/-! The operands taken are the children of the root -/

theorem chosen_and {ts : List Tree} (h : (Tree.and ts).IsNormal) (two : 2 ≤ ts.length) :
    (Tree.and ts).chosen = ts := by
  have hc : (Tree.and ts).isCnf := by
    obtain h | h := h
    · exact h
    · exact List.all_eq_true.mpr fun t ht => isClause_of_isLiteral (List.all_eq_true.mp h t ht)
  have short : ¬(Tree.and ts).conjuncts.length < (Tree.and ts).disjuncts.length := by
    simp only [conjuncts, disjuncts, List.length_singleton]
    omega
  rw [chosen, if_pos hc, if_neg (by simpa using fun _ => Nat.le_of_not_lt short), conjuncts]

theorem chosen_or {ts : List Tree} (h : (Tree.or ts).IsNormal) (two : 2 ≤ ts.length) :
    (Tree.or ts).chosen = ts := by
  have hd : (Tree.or ts).isDnf := by
    obtain h | h := h
    · exact List.all_eq_true.mpr fun t ht => isTerm_of_isLiteral (List.all_eq_true.mp h t ht)
    · exact h
  have long : (Tree.or ts).conjuncts.length < (Tree.or ts).disjuncts.length := by
    simp only [conjuncts, disjuncts, List.length_singleton]
    omega
  by_cases hc : (Tree.or ts).isCnf
  · rw [chosen, if_pos hc, if_pos (by simpa using ⟨hd, long⟩), disjuncts]
  · rw [chosen, if_neg hc, if_pos hd, disjuncts]

/-- A tree in normal form is built as it stands. -/
theorem builds_of_isNormal (table : Entries Value) {t : Tree} (hw : t.Wide) (h : t.IsNormal) :
    Builds table t (t.predicate table) := by
  induction hw with
  | symbol name => exact .symbol h.normal_eq
  | not hw ih => exact .not h.normal_eq (ih (isNormal_of_not h))
  | @and ts two hw ih =>
    rw [predicate_and]
    refine .and h.normal_eq ?_ (by simpa using List.ne_nil_of_length_pos (by omega))
    rw [h.normal_eq, chosen_and h two, List.forall₂_map_right_iff, List.forall₂_same]
    exact fun t ht => ih t ht (IsNormal.operands (.inl h) t ht)
  | @or ts two hw ih =>
    rw [predicate_or]
    refine .or h.normal_eq ?_ (by simpa using List.ne_nil_of_length_pos (by omega))
    rw [h.normal_eq, chosen_or h two, List.forall₂_map_right_iff, List.forall₂_same]
    exact fun t ht => ih t ht (IsNormal.operands (.inr h) t ht)

/-- Building a tree is building its normal form. -/
theorem Builds.of_normal {table : Entries Value} {t : Tree} {v : Value}
    (h : Builds table t.normal v) : Builds table t v := by
  have root := (isNormal_normal t).normal_eq
  cases h with
  | symbol hn => exact .symbol (root.symm.trans hn)
  | not hn hu => exact .not (root.symm.trans hn) hu
  | and hn hvs some => exact .and (root.symm.trans hn) (by rwa [root] at hvs) some
  | or hn hvs some => exact .or (root.symm.trans hn) (by rwa [root] at hvs) some

theorem builds_predicate_normal (table : Entries Value) {t : Tree} (hw : t.Wide) :
    Builds table t (t.normal.predicate table) :=
  (builds_of_isNormal table hw.normal (isNormal_normal t)).of_normal

/-! The value of a predicate -/

theorem arr?_predicate {table : Entries Value}
    (scalars : ∀ name v, table.get? name = some v → v.arr? = none) (t : Tree) :
    (t.predicate table).arr? = none := by
  cases t with
  | symbol name =>
    rw [predicate]
    cases h : table.get? name with
    | none => rfl
    | some v => exact scalars name v h
  | _ => rfl

/-- A predicate is as true as its tree, if every clause in it has the truth value of its symbol. -/
theorem eval_predicate {table : Entries Value} {context : Value} {σ : String → Bool}
    (scalars : ∀ name v, table.get? name = some v → v.arr? = none) {t : Tree} (hw : t.Wide)
    (names : ∀ name ∈ t.names, ∃ v w, table.get? name = some v ∧ Expr.eval context v = .ok w ∧
      Expr.truthy w = σ name) :
    ∃ w, Expr.eval context (t.predicate table) = .ok w ∧ Expr.truthy w = t.holds σ := by
  induction hw with
  | symbol name =>
    obtain ⟨v, w, hv, hw⟩ := names name (by simp [Tree.names])
    exact ⟨w, by simpa [predicate, hv] using hw⟩
  | @not t hw ih =>
    obtain ⟨w, hv, ht⟩ := ih names
    refine ⟨.bool (!Expr.truthy w), ?_, by rw [Expr.truthy, ht, holds_not]⟩
    rw [predicate, Expr.eval_node_bare context rfl (arr?_predicate scalars t), hv]
    rfl
  | @and ts two hw ih =>
    simp only [names_and, List.forall_mem_flatMap] at names
    refine ⟨.bool (ts.all (holds σ)), ?_, by rw [Expr.truthy, holds_and]⟩
    have some : ts.map (predicate table) ≠ [] := by
      simpa using List.ne_nil_of_length_pos (by omega)
    rw [predicate_and, Expr.eval_node_all context rfl some,
      Expr.evalAll_map context fun t ht => ih t ht (names t ht)]
    rfl
  | @or ts two hw ih =>
    simp only [names_or, List.forall_mem_flatMap] at names
    refine ⟨.bool (ts.any (holds σ)), ?_, by rw [Expr.truthy, holds_or]⟩
    have some : ts.map (predicate table) ≠ [] := by
      simpa using List.ne_nil_of_length_pos (by omega)
    rw [predicate_or, Expr.eval_node_any context rfl some,
      Expr.evalAny_map context fun t ht => ih t ht (names t ht)]
    rfl

/-! Compiling -/

theorem mem_symbols {t : Tree} {name : String} : name ∈ t.symbols ↔ name ∈ t.names := by
  simp [symbols, Entries.mem_keys_ofList]

end Tree

/-- A text compiles if it parses and the table has its symbols. -/
theorem compile_eq_ok {text : String} {table : Entries Value} {p : Value} :
    compile text table = .ok p ↔
      ∃ tree, parse text = .ok tree ∧ (∀ name ∈ tree.names, (table.get? name).isSome) ∧
        p = tree.normal.predicate table := by
  unfold compile
  cases hparse : parse text with
  | error e => simp
  | ok tree =>
    have missing : (tree.symbols.filter fun name => !table.has name) = [] ↔
        ∀ name ∈ tree.names, (table.get? name).isSome := by
      simp [List.filter_eq_nil_iff, Tree.mem_symbols, Entries.has, Option.isSome_iff_ne_none]
    dsimp only
    split
    · rename_i h
      constructor
      · rintro ⟨⟩
        exact ⟨tree, rfl, missing.mp h, rfl⟩
      · rintro ⟨_, ⟨⟩, -, rfl⟩
        rfl
    · rename_i h
      simp only [reduceCtorEq, false_iff]
      rintro ⟨tree', htree, hnames, -⟩
      cases htree
      exact h (missing.mpr hnames)

/-- A text fails to compile exactly where it does not parse or has a symbol that the table lacks.
What it compiles to is built without empty operators, and is true where the parsed tree is. -/
theorem compile_meaning (text : String) (table : Entries Value)
    (scalars : ∀ name v, table.get? name = some v → v.arr? = none) :
    ((∃ e, compile text table = .error e) ↔
      (∃ e, parse text = .error e) ∨
        ∃ tree, parse text = .ok tree ∧ ∃ name ∈ tree.names, table.get? name = none) ∧
    ∀ tree p, parse text = .ok tree → compile text table = .ok p →
      tree.Builds table p ∧
      ∀ (context : Value) (σ : String → Bool),
        (∀ name ∈ tree.names, ∃ v w, table.get? name = some v ∧ Expr.eval context v = .ok w ∧
          Expr.truthy w = σ name) →
        ∃ w, Expr.eval context p = .ok w ∧ Expr.truthy w = tree.holds σ := by
  constructor
  · have total : (∃ e, compile text table = .error e) ↔ ¬∃ p, compile text table = .ok p := by
      cases compile text table <;> simp
    rw [total]
    simp only [compile_eq_ok]
    cases hparse : parse text with
    | error e => simp
    | ok tree => simp
  · intro tree p hparse hp
    obtain ⟨tree', hparse', -, rfl⟩ := compile_eq_ok.mp hp
    cases hparse.symm.trans hparse'
    have hw := wide_of_parse hparse
    refine ⟨Tree.builds_predicate_normal table hw, ?_⟩
    intro context σ names
    obtain ⟨w, hw, ht⟩ := Tree.eval_predicate scalars hw.normal (Tree.names_normal names)
    exact ⟨w, hw, ht.trans (Tree.holds_normal σ tree)⟩

theorem parse_of_tokens {text : String} {ts : List Token}
    (h : (tokenize text).toOption.map (List.map Spanned.token) = some ts) :
    parse text = parseTokens ts := by
  unfold parse
  cases htokens : tokenize text with
  | error e => simp [htokens, Except.toOption] at h
  | ok spanned =>
    rw [htokens] at h
    rw [← Option.some.inj h]

/-- A negated conjunction is brought into normal form first, and keeps its meaning. -/
theorem compile_meaning_negated_pair :
    let table : Entries Value := [("a", .bool true), ("b", .node "null" (.str "name"))]
    let context : Value := .node "name" (.str "x")
    let tree : Tree := .not (.and [.symbol "a", .symbol "b"])
    ∃ p, parse "!(a and b)" = .ok tree ∧ compile "!(a and b)" table = .ok p ∧ tree.Builds table p ∧
      ∃ w, Expr.eval context p = .ok w ∧ Expr.truthy w = true := by
  intro table context tree
  have scalars (name : String) (v : Value) (h : table.get? name = some v) : v.arr? = none := by
    have hmem := Entries.mem_of_get? h
    simp only [table, List.mem_cons, Prod.mk.injEq, List.not_mem_nil, or_false] at hmem
    obtain ⟨-, rfl⟩ | ⟨-, rfl⟩ := hmem <;> rfl
  have tokens : (tokenize "!(a and b)").toOption.map (List.map Spanned.token) =
      some [.not, .lparen, .symbol "a", .and, .symbol "b", .rparen, .eof] := by decide +kernel
  have hparse : parse "!(a and b)" = .ok tree := (parse_of_tokens tokens).trans rfl
  have hp : compile "!(a and b)" table = .ok (tree.normal.predicate table) :=
    compile_eq_ok.mpr ⟨tree, hparse, by decide, rfl⟩
  obtain ⟨-, meaning⟩ := compile_meaning "!(a and b)" table scalars
  obtain ⟨built, holds⟩ := meaning tree _ hparse hp
  refine ⟨_, hparse, hp, built, holds context (fun name => name == "a") ?_⟩
  intro name hname
  obtain rfl | rfl : name = "a" ∨ name = "b" := by
    simpa [tree, Tree.names, Tree.namesAll] using hname
  · exact ⟨.bool true, .bool true, rfl, rfl, rfl⟩
  · have missing : Expr.eval (.node "name" (.str "x")) (.node "null" (.str "name")) =
        .ok (.bool false) := rfl
    exact ⟨.node "null" (.str "name"), .bool false, rfl, missing, rfl⟩

end RecordGraph.Algebra
