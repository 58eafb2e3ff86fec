import RecordGraph.Proofs.Algebra.Compile
import RecordGraph.Proofs.Store.Memory
import RecordGraph.Query.Clause

/-!
Filters as they are evaluated. The predicate that the parameters of a level make has a value on every
record, unless one of its clauses compares by a method that takes a single operand: that clause has two
and fails wherever it is reached.
-/
namespace RecordGraph

/-! Failures -/

/-- A computation that fails in certain ways only, if it fails. -/
def FailsOnly {ε α : Type} (ways : ε → Prop) (x : Except ε α) : Prop :=
  ∀ error, x = .error error → ways error

namespace FailsOnly
variable {ε α β : Type} {ways : ε → Prop} {x : Except ε α}

theorem ok (a : α) : FailsOnly ways (.ok a) := by rintro _ ⟨⟩

theorem bind {f : α → Except ε β} (hx : FailsOnly ways x) (hf : ∀ a, FailsOnly ways (f a)) :
    FailsOnly ways (x.bind f) := by
  cases x with
  | ok a => exact hf a
  | error e =>
    rintro _ ⟨⟩
    exact hx e rfl

theorem map {f : α → β} (hx : FailsOnly ways x) : FailsOnly ways (x.map f) := by
  cases x with
  | ok a => exact ok (f a)
  | error e =>
    rintro _ ⟨⟩
    exact hx e rfl

end FailsOnly

namespace Expr

/-- The methods that take a single operand. -/
def isUnary (name : String) : Bool :=
  match Method.ofName? name with
  | some (.unary _) => true
  | _ => false

section
variable {context : Value} {ways : EvalError → Prop} {xs : List Value}
  (h : ∀ x ∈ xs, FailsOnly ways (eval context x))
include h

theorem failsOnly_evalAll : FailsOnly ways (evalAll context xs) := by
  induction xs with
  | nil => exact .ok true
  | cons x xs ih =>
    rw [List.forall_mem_cons] at h
    refine h.1.bind fun w => ?_
    split
    · exact ih h.2
    · exact .ok false

theorem failsOnly_evalAny : FailsOnly ways (evalAny context xs) := by
  induction xs with
  | nil => exact .ok false
  | cons x xs ih =>
    rw [List.forall_mem_cons] at h
    refine h.1.bind fun w => ?_
    split
    · exact .ok true
    · exact ih h.2

end

/-- A node under `and` or `or` fails in the ways of its operands only. -/
theorem failsOnly_node {context : Value} {ways : EvalError → Prop} {name : String} {m : Method}
    (hm : Method.ofName? name = some m) (joins : m = .all ∨ m = .any) {xs : List Value}
    (some : xs ≠ []) (h : ∀ x ∈ xs, FailsOnly ways (eval context x)) :
    FailsOnly ways (eval context (.node name (.arr xs))) := by
  rcases joins with rfl | rfl
  · rw [eval_node_all context hm some]
    exact (failsOnly_evalAll h).map
  · rw [eval_node_any context hm some]
    exact (failsOnly_evalAny h).map

end Expr

/-- A predicate fails in the ways of its clauses only. -/
theorem Algebra.Tree.failsOnly_predicate {context : Value} {ways : Expr.EvalError → Prop}
    {table : Entries Value} (scalars : ∀ name v, table.get? name = some v → v.arr? = none) {t : Tree}
    (hw : t.Wide) (names : ∀ name ∈ t.names,
      ∃ v, table.get? name = some v ∧ FailsOnly ways (Expr.eval context v)) :
    FailsOnly ways (Expr.eval context (t.predicate table)) := by
  have nonempty {ts : List Tree} (two : 2 ≤ ts.length) : ts.map (predicate table) ≠ [] := by
    simpa using List.ne_nil_of_length_pos (by omega)
  induction hw with
  | symbol name =>
    obtain ⟨v, hv, h⟩ := names name (by simp [Tree.names])
    simpa [predicate, hv] using h
  | @not t hw ih =>
    rw [predicate, Expr.eval_node_bare context rfl (arr?_predicate scalars t)]
    exact (ih names).bind fun w => .ok _
  | @and ts two hw ih =>
    simp only [names_and, List.forall_mem_flatMap] at names
    rw [predicate_and]
    exact Expr.failsOnly_node rfl (.inl rfl) (nonempty two)
      (List.forall_mem_map.mpr fun t ht => ih t ht (names t ht))
  | @or ts two hw ih =>
    simp only [names_or, List.forall_mem_flatMap] at names
    rw [predicate_or]
    exact Expr.failsOnly_node rfl (.inr rfl) (nonempty two)
      (List.forall_mem_map.mpr fun t ht => ih t ht (names t ht))

/-! Clauses -/

theorem Scalar.eval_read (context : Value) (s : String) :
    ∃ v, Expr.eval context (read true s) = .ok v := by
  unfold read
  simp only [if_true]
  split
  · exact ⟨_, rfl⟩
  · exact ⟨_, rfl⟩
  · exact ⟨_, rfl⟩
  · split <;> exact ⟨_, rfl⟩

/-- The value of a clause always evaluates. -/
theorem Scalar.eval_readAll (context : Value) (texts : List String) :
    ∃ v, Expr.eval context (readAll true texts) = .ok v := by
  have items (texts : List String) :
      ∃ vs, Expr.evalItems context (texts.map (read true)) = .ok vs := by
    induction texts with
    | nil => exact ⟨[], rfl⟩
    | cons s texts ih =>
      obtain ⟨v, hv⟩ := eval_read context s
      obtain ⟨vs, hvs⟩ := ih
      exact ⟨v :: vs, by rw [List.map_cons, Expr.evalItems, hv, Except.ok_bind, hvs, Except.ok_map]⟩
  unfold readAll
  split
  · exact eval_read context _
  · obtain ⟨vs, hvs⟩ := items texts
    exact ⟨.arr vs, by rw [Expr.eval, hvs, Except.ok_map]⟩

namespace WhereParam

/-- The method that a clause compares by; an algebra has none. -/
def operator? (p : WhereParam) : Option String :=
  match p.segments with
  | [] => none
  | [_] => some "="
  | _ :: op :: _ => some op

/-- The clause of a field, a method and the texts of its value. -/
def comparison (field op : String) (values : List String) : Value :=
  .node op (.arr [.str field, Scalar.readAll true values])

/-- A method that clauses may use takes one operand, two, or any number of them. -/
theorem method_of_isComparison {op : String} (h : isComparison op) :
    ∃ m, Expr.Method.ofName? op = some m ∧
      ((∃ u, m = .unary u) ∨ (∃ b, m = .binary b) ∨ ∃ v, m = .variadic v) := by
  simp only [isComparison, Expr.isMethod, Bool.and_eq_true, Bool.not_eq_true'] at h
  obtain ⟨m, hm⟩ := Option.isSome_iff_exists.mp h.1
  refine ⟨m, hm, ?_⟩
  cases m with
  | unary u => exact .inl ⟨u, rfl⟩
  | binary b => exact .inr (.inl ⟨b, rfl⟩)
  | variadic v => exact .inr (.inr ⟨v, rfl⟩)
  | get | all | any | join | literal | object =>
    exfalso
    unfold Expr.Method.ofName? at hm
    split at hm <;> first | cases hm; done | simp at h

section
variable (context : Value) {op : String} (field : String) (values : List String)

/-- A clause has two operands, one too many for a method that takes a single one. -/
theorem eval_comparison_unary (h : Expr.isUnary op) :
    Expr.eval context (comparison field op values) = .error (.invalidArguments op .one) := by
  unfold Expr.isUnary at h
  split at h
  · rename_i u hm
    simp [comparison, Value.node, Expr.eval, hm]
  · cases h

/-- A clause by any other method has a value. -/
theorem eval_comparison (h : isComparison op) :
    Expr.isUnary op ∨ ∃ v, Expr.eval context (comparison field op values) = .ok v := by
  obtain ⟨v, hv⟩ := Scalar.eval_readAll context values
  have hfield : Expr.eval context (.str field) = .ok (Expr.evalText context field) := rfl
  obtain ⟨m, hm, ⟨u, rfl⟩ | ⟨b, rfl⟩ | ⟨f, rfl⟩⟩ := method_of_isComparison h
  · exact .inl (by rw [Expr.isUnary, hm])
  · exact .inr ⟨_, Expr.eval_node_binary context hm hfield hv⟩
  · refine .inr ⟨f.apply [Expr.evalText context field, v], ?_⟩
    rw [comparison, Expr.eval_node_variadic context hm, Expr.evalItems, hfield, Except.ok_bind,
      Expr.evalItems, hv, Except.ok_bind, Expr.evalItems, Except.ok_map, Except.ok_map, Except.ok_map]

end

/-- A predicate compares a field as a parameter asks: by its method, with its values. -/
def Compares (p : WhereParam) (predicate : Value) : Prop :=
  ∃ field op, p.operator? = some op ∧ isComparison op ∧ predicate = comparison field op p.values

/-- What a parameter is read as, an algebra or a clause, is told by whether it has a method. -/
theorem read_eq_ok {p : WhereParam} {index : Nat} {reading : Reading}
    (h : p.read index = .ok reading) :
    (∃ text, reading = .algebra text ∧ p.operator? = none ∧ p.segments = [] ∧ p.values = [text]) ∨
      ∃ tag predicate, reading = .clause tag predicate ∧ p.Compares predicate := by
  have clause {field op tag : String} (hop : p.operator? = some op)
      (h : p.clause field op tag = .ok reading) :
      ∃ tag predicate, reading = .clause tag predicate ∧ p.Compares predicate := by
    rw [WhereParam.clause] at h
    split at h
    · cases h
      exact ⟨tag, _, rfl, field, op, hop, ‹_›, rfl⟩
    · cases h
  rw [WhereParam.read] at h
  split at h
  · rename_i hsegments
    split at h
    · rename_i text hvalues
      cases h
      exact .inl ⟨text, rfl, by rw [operator?, hsegments], hsegments, hvalues⟩
    · cases h
  · rename_i field hsegments
    exact .inr (clause (by rw [operator?, hsegments]) h)
  · rename_i field op hsegments
    exact .inr (clause (by rw [operator?, hsegments]) h)
  · rename_i field op tag hsegments
    split at h
    · cases h
    · exact .inr (clause (by rw [operator?, hsegments]) h)
  · cases h

end WhereParam

namespace WhereClauses

/-- What a parameter adds: an algebra, or its comparison at the end. -/
theorem add_cases {found r : WhereClauses} {p : WhereParam} {index : Nat}
    (h : found.add p index = .ok r) :
    (∃ text, p.operator? = none ∧ p.segments = [] ∧ p.values = [text] ∧
        r = { found with algebra := some text }) ∨
      ∃ tag predicate, p.Compares predicate ∧
        r = { found with clauses := found.clauses ++ [(tag, predicate)] } := by
  unfold add at h
  split at h
  · cases h
  · obtain ⟨reading, hreading, h⟩ := Except.monad_bind_eq_ok.mp h
    rcases WhereParam.read_eq_ok hreading with
      ⟨text, rfl, hop, hsegments, hvalues⟩ | ⟨tag, predicate, rfl, compares⟩
    · cases h
      exact .inl ⟨text, hop, hsegments, hvalues, rfl⟩
    · dsimp only at h
      split at h
      · cases h
      · cases h
        exact .inr ⟨tag, predicate, compares, rfl⟩

/-- The clauses that parameters add are the comparisons of those with a method, in their order; an algebra is the
text of a parameter without one. -/
theorem collect_cases {ps : List WhereParam} {index : Nat} {found r : WhereClauses}
    (h : collect ps index found = .ok r) :
    (∃ cs, r.clauses = found.clauses ++ cs ∧
      List.Forall₂ (fun p c => p.Compares c.2) (ps.filter fun p => p.operator?.isSome) cs) ∧
    (r.algebra = found.algebra ∨
      ∃ p ∈ ps, ∃ text, p.segments = [] ∧ p.values = [text] ∧ r.algebra = some text) := by
  induction ps generalizing index found with
  | nil =>
    cases h
    exact ⟨⟨[], by simp, .nil⟩, .inl rfl⟩
  | cons p ps ih =>
    obtain ⟨next, hnext, h⟩ := Except.monad_bind_eq_ok.mp h
    obtain ⟨⟨cs, hcs, said⟩, halgebra⟩ := ih h
    have later (h : ∃ p ∈ ps, ∃ text, p.segments = [] ∧ p.values = [text] ∧ r.algebra = some text) :
        ∃ q ∈ p :: ps, ∃ text, q.segments = [] ∧ q.values = [text] ∧ r.algebra = some text := by
      obtain ⟨q, hq, h⟩ := h
      exact ⟨q, List.mem_cons_of_mem _ hq, h⟩
    rcases add_cases hnext with
      ⟨text, hop, hsegments, hvalues, rfl⟩ | ⟨tag, predicate, compares, rfl⟩
    · refine ⟨⟨cs, hcs, by simpa [hop] using said⟩, .inr ?_⟩
      rcases halgebra with halgebra | halgebra
      · exact ⟨p, List.mem_cons_self, text, hsegments, hvalues, halgebra⟩
      · exact later halgebra
    · have hop : p.operator?.isSome := by
        obtain ⟨field, op, hop, -⟩ := compares
        simp [hop]
      refine ⟨⟨(tag, predicate) :: cs, by simp [hcs], ?_⟩, halgebra.imp id later⟩
      rw [List.filter_cons, if_pos hop]
      exact .cons compares said

section predicates
variable {context : Value} {found : WhereClauses} {v : Value}

/-- Clauses that are combined by an operator are its operands, or the predicate where there is one. -/
theorem combine_eq_ok {op : String} {clauses : List (String × Value)}
    (h : combine op clauses = .ok v) :
    clauses.map Prod.snd ≠ [] ∧
      (clauses.map Prod.snd = [v] ∨ v = .node op (.arr (clauses.map Prod.snd))) := by
  unfold combine at h
  split at h
  · cases h
  · cases h
    exact ⟨by simp, .inl rfl⟩
  · rename_i hnone hone
    cases h
    exact ⟨by simpa using hnone, .inr rfl⟩

/-- A predicate joins the clauses by one operator, or is compiled from an algebra that is more than one. -/
theorem predicate_cases (h : found.predicate = .ok v) :
    (∃ op m, Expr.Method.ofName? op = some m ∧ (m = .all ∨ m = .any) ∧ combine op found.clauses = .ok v) ∨
      ∃ text, found.algebra = some text ∧ text ≠ "and" ∧ text ≠ "or" ∧
        Algebra.compile text (Entries.ofList found.clauses) = .ok v := by
  unfold predicate at h
  split at h
  · exact .inl ⟨"and", .all, rfl, .inl rfl, h⟩
  · exact .inl ⟨"and", .all, rfl, .inl rfl, h⟩
  · exact .inl ⟨"or", .any, rfl, .inr rfl, h⟩
  · rename_i text hand hor halgebra
    split at h
    · rename_i compiled hcompile
      cases h
      refine .inr ⟨text, halgebra, ?_, ?_, hcompile⟩
      · rintro rfl
        exact hand rfl
      · rintro rfl
        exact hor rfl
    · cases h

/-- The predicate of clauses fails in their ways only. -/
theorem failsOnly_predicate {ways : Expr.EvalError → Prop}
    (scalars : ∀ c ∈ found.clauses, c.2.arr? = none)
    (hclauses : ∀ c ∈ found.clauses, FailsOnly ways (Expr.eval context c.2))
    (h : found.predicate = .ok v) : FailsOnly ways (Expr.eval context v) := by
  obtain ⟨op, m, hm, joins, hcombine⟩ | ⟨text, -, -, -, hcompile⟩ := predicate_cases h
  · have hall : ∀ x ∈ found.clauses.map Prod.snd, FailsOnly ways (Expr.eval context x) := by
      simpa using fun predicate tag hc => hclauses (tag, predicate) hc
    obtain ⟨some, hone | rfl⟩ := combine_eq_ok hcombine
    · exact hall v (by simp [hone])
    · exact Expr.failsOnly_node hm joins some hall
  · obtain ⟨tree, hparse, hnames, rfl⟩ := Algebra.compile_eq_ok.mp hcompile
    have entry {name : String} {v : Value} (h : (Entries.ofList found.clauses).get? name = some v) :
        (name, v) ∈ found.clauses := Entries.mem_of_mem_ofList (Entries.mem_of_get? h)
    refine Algebra.Tree.failsOnly_predicate (fun name v h => scalars _ (entry h))
      (Algebra.wide_of_parse hparse).normal (Algebra.Tree.names_normal fun name hname => ?_)
    obtain ⟨v, hv⟩ := Option.isSome_iff_exists.mp (hnames name hname)
    exact ⟨v, hv, hclauses _ (entry hv)⟩

/-- Without an algebra of its own, a predicate fails as its first clause does. -/
theorem predicate_error {error : Expr.EvalError} {tag : String} {first : Value}
    {rest : List (String × Value)}
    (bare : ∀ text, found.algebra = some text → text = "and" ∨ text = "or")
    (hclauses : found.clauses = (tag, first) :: rest)
    (hfirst : Expr.eval context first = .error error) (h : found.predicate = .ok v) :
    Expr.eval context v = .error error := by
  obtain ⟨op, m, hm, joins, hcombine⟩ | ⟨text, halgebra, hand, hor, -⟩ := predicate_cases h
  · obtain ⟨some, hone | rfl⟩ := combine_eq_ok hcombine
    · rw [hclauses, List.map_cons, List.cons.injEq] at hone
      rw [← hone.1, hfirst]
    · rw [hclauses, List.map_cons] at some ⊢
      rcases joins with rfl | rfl
      · rw [Expr.eval_node_all context hm some, Expr.evalAll, hfirst, Except.error_bind,
          Except.error_map]
      · rw [Expr.eval_node_any context hm some, Expr.evalAny, hfirst, Except.error_bind,
          Except.error_map]
  · exact ((bare text halgebra).elim hand hor).elim

end predicates
end WhereClauses

section assembled
variable {params : List WhereParam} {predicate : Value}

/-- A filter that is assembled fails by a clause that compares by a method of a single operand, if at all. -/
theorem failsOnly_assembleWhere (h : assembleWhere params = .ok predicate) (context : Value) :
    FailsOnly (fun error => ∃ p ∈ params, ∃ op, p.operator? = some op ∧ Expr.isUnary op ∧
      error = .invalidArguments op .one) (Expr.eval context predicate) := by
  obtain ⟨found, hfound, hpredicate⟩ := Except.monad_bind_eq_ok.mp h
  obtain ⟨⟨cs, hcs, said⟩, -⟩ := WhereClauses.collect_cases hfound
  obtain rfl : found.clauses = cs := hcs
  have compares {c : String × Value} (hc : c ∈ found.clauses) : ∃ p ∈ params, p.Compares c.2 := by
    obtain ⟨p, hp, compares⟩ := said.exists_left hc
    exact ⟨p, List.mem_of_mem_filter hp, compares⟩
  refine WhereClauses.failsOnly_predicate (fun c hc => ?_) (fun c hc => ?_) hpredicate
  · obtain ⟨p, -, field, op, -, -, hpredicate⟩ := compares hc
    rw [hpredicate]
    rfl
  · obtain ⟨p, hp, field, op, hop, hcomparison, hpredicate⟩ := compares hc
    rw [hpredicate]
    rcases WhereParam.eval_comparison context field p.values hcomparison with unary | ⟨v, hv⟩
    · rw [WhereParam.eval_comparison_unary _ field p.values unary]
      rintro _ ⟨⟩
      exact ⟨p, hp, op, hop, unary, rfl⟩
    · rw [hv]
      exact .ok v

/-- Where the clauses are joined by one operator, a filter fails if the first of them compares by a method
of a single operand. -/
theorem assembleWhere_error (h : assembleWhere params = .ok predicate)
    (bare : ∀ p ∈ params, p.segments = [] → p.values = ["and"] ∨ p.values = ["or"]) {op : String}
    (first : (params.filterMap WhereParam.operator?).head? = some op) (unary : Expr.isUnary op)
    (context : Value) : Expr.eval context predicate = .error (.invalidArguments op .one) := by
  obtain ⟨found, hfound, hpredicate⟩ := Except.monad_bind_eq_ok.mp h
  obtain ⟨⟨cs, hcs, said⟩, halgebra⟩ := WhereClauses.collect_cases hfound
  obtain rfl : found.clauses = cs := hcs
  have algebras (text : String) (htext : found.algebra = some text) : text = "and" ∨ text = "or" := by
    rcases halgebra with hnone | ⟨p, hp, text', hsegments, hvalues, hsome⟩
    · rw [hnone] at htext
      cases htext
    · cases hsome.symm.trans htext
      simpa [hvalues] using bare p hp hsegments
  have named : params.filterMap WhereParam.operator? =
      (params.filter fun p => p.operator?.isSome).filterMap WhereParam.operator? := by
    rw [List.filterMap_filter]
    congr 1
    funext p
    cases p.operator? <;> rfl
  rw [named] at first
  cases hclauses : found.clauses with
  | nil =>
    rw [hclauses, List.forall₂_nil_right_iff] at said
    rw [said] at first
    cases first
  | cons c rest =>
    rw [hclauses, List.forall₂_cons_right_iff] at said
    obtain ⟨p, ps, ⟨field, op', hop', hcomparison, hc⟩, -, hparams⟩ := said
    rw [hparams, List.filterMap_cons_some hop'] at first
    cases first
    refine WhereClauses.predicate_error algebras hclauses ?_ hpredicate
    rw [hc]
    exact WhereParam.eval_comparison_unary _ field p.values unary

end assembled

/-- A filter that is assembled has a value on every record, unless a clause in it compares by a method
of a single operand, and then fails by that clause if it fails. Where the clauses are joined by one
operator, it does fail on every record if the first of them is such a clause. -/
theorem eval_assembleWhere {params : List WhereParam} {predicate : Value}
    (h : assembleWhere params = .ok predicate) (record : Record) :
    ((∃ v, Expr.eval (.node "fields" (.obj record)) predicate = .ok v) ∨
      ∃ p ∈ params, ∃ op, p.operator? = some op ∧ Expr.isUnary op ∧
        Expr.eval (.node "fields" (.obj record)) predicate = .error (.invalidArguments op .one)) ∧
    ((∀ p ∈ params, p.segments = [] → p.values = ["and"] ∨ p.values = ["or"]) →
      ∀ op, (params.filterMap WhereParam.operator?).head? = some op → Expr.isUnary op →
        Expr.eval (.node "fields" (.obj record)) predicate = .error (.invalidArguments op .one)) := by
  have fails := failsOnly_assembleWhere h (.node "fields" (.obj record))
  constructor
  · cases hv : Expr.eval (.node "fields" (.obj record)) predicate with
    | ok v => exact .inl ⟨v, rfl⟩
    | error e =>
      obtain ⟨p, hp, op, hop, unary, rfl⟩ := fails e hv
      exact .inr ⟨p, hp, op, hop, unary, rfl⟩
  · exact fun bare op first unary => assembleWhere_error h bare first unary _

/-- A comparison of two fields and a number, and one that asks whether a field is null: the first has a
value on every record, the second on none. -/
theorem eval_assembleWhere_null :
    let kept : List WhereParam := [⟨"where:year:>=", ["year", ">="], ["1815"]⟩]
    let broken : List WhereParam := [⟨"where:sequel:null", ["sequel", "null"], ["true"]⟩]
    ∃ p q, assembleWhere kept = .ok p ∧ assembleWhere broken = .ok q ∧ ∀ record : Record,
      (∃ v, Expr.eval (.node "fields" (.obj record)) p = .ok v) ∧
      Expr.eval (.node "fields" (.obj record)) q = .error (.invalidArguments "null" .one) := by
  intro kept broken
  refine ⟨_, _, rfl, rfl, fun record => ⟨?_, ?_⟩⟩
  · obtain ⟨hv | ⟨p, hp, op, hop, unary, -⟩, -⟩ := @eval_assembleWhere kept _ rfl record
    · exact hv
    · cases List.mem_singleton.mp hp
      cases hop
      cases unary
  · exact (@eval_assembleWhere broken _ rfl record).2 (by simp [broken]) "null" rfl rfl

/-- A filter that is accepted may fail by its operands: null is asked of one, and a clause has two. -/
theorem eval_assembleWhere_unary :
    ¬∀ params predicate, assembleWhere params = .ok predicate → ∀ (record : Record) method expected,
      Expr.eval (.node "fields" (.obj record)) predicate ≠ .error (.invalidArguments method expected) :=
  fun h => h [⟨"where:sequel:null", ["sequel", "null"], ["true"]⟩] _ rfl [] "null" .one rfl

end RecordGraph
