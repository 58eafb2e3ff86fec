import RecordGraph.Proofs.Predicate.Resolve
import RecordGraph.Proofs.Predicate.Storage
import RecordGraph.Run.Engine

/-!
Prepared predicates. A formula that is resolved and stored decides on a stored record as it would by
itself on the view of the record, the request and the query.
-/
namespace RecordGraph

namespace Engine

theorem preparePredicate_eq_ok {e : Engine} {r : Resource} {ctx : Context} {p p' : Value} :
    e.preparePredicate r ctx p = .ok p' ↔
      ∃ q, resolve ctx.scope p = .ok q ∧ e.server.toStorage r q = .ok p' := by
  unfold preparePredicate
  cases resolve ctx.scope p <;> simp

/-- A prepared formula has on every record the outcome of the formula on the view of the record. -/
theorem eval_preparePredicate (e : Engine) {r : Resource} (ctx : Context) {p p' : Value}
    (hp : Formula r ctx.Refers p) (prepared : e.preparePredicate r ctx p = .ok p')
    (record : Record) :
    Expr.eval (.node "fields" (.obj record)) p' =
      Expr.eval (ctx.recordScope (some (r.view record))) p := by
  obtain ⟨q, hq, hstored⟩ := preparePredicate_eq_ok.mp prepared
  have resolved := resolve_formula hp hq
  obtain ⟨p'', hp'', -, stored⟩ := toStorage_settled e.server resolved.settled
  cases hstored.symm.trans hp''
  exact (stored ctx record).trans (resolved.same _)

/-- A record satisfies a predicate once this is prepared. -/
def Selects (e : Engine) (r : Resource) (ctx : Context) (predicate : Value) (record : Record) : Prop :=
  ∃ p, e.preparePredicate r ctx predicate = .ok p ∧ Store.isMatch (some p) record = .ok true

instance (e : Engine) (r : Resource) (ctx : Context) (predicate : Value) (record : Record) :
    Decidable (e.Selects r ctx predicate record) :=
  match hp : e.preparePredicate r ctx predicate with
  | .error _ => isFalse fun ⟨_, h, _⟩ => by cases hp.symm.trans h
  | .ok p =>
    match hmatch : Store.isMatch (some p) record with
    | .ok true => isTrue ⟨p, hp, hmatch⟩
    | .ok false => isFalse fun ⟨_, h, h'⟩ => by
      cases hp.symm.trans h
      cases hmatch.symm.trans h'
    | .error _ => isFalse fun ⟨_, h, h'⟩ => by
      cases hp.symm.trans h
      cases hmatch.symm.trans h'

/-- A record satisfies all that is prepared if every predicate selects it. -/
theorem selects_iff {e : Engine} {r : Resource} {ctx : Context} {predicates ps : List Value}
    (h : predicates.mapM (e.preparePredicate r ctx) = .ok ps) (record : Record) :
    (∀ predicate ∈ predicates, e.Selects r ctx predicate record) ↔
      ∀ p ∈ ps, Store.isMatch (some p) record = .ok true := by
  have prepared := Except.mapM_eq_ok.mp h
  constructor
  · intro all p hp
    obtain ⟨predicate, hmem, hprepared⟩ := prepared.exists_left hp
    obtain ⟨p', hp', hmatch⟩ := all predicate hmem
    cases hprepared.symm.trans hp'
    exact hmatch
  · intro all predicate hmem
    obtain ⟨p, hp, hprepared⟩ := prepared.flip.exists_left hmem
    exact ⟨p, hprepared, all p hp⟩

/-- What satisfies all that a level prepares satisfies its permission and its filter. -/
theorem selects_of_prepareAll {e : Engine} {r : Resource} {ctx : Context} {access : Access}
    {filter : Option Value} {ps : List Value} (h : e.prepareAll r ctx access filter = .ok ps)
    (record : Record) (all : ∀ p ∈ ps, Store.isMatch (some p) record = .ok true) :
    (∀ predicate, access.predicate? = some predicate → e.Selects r ctx predicate record) ∧
      ∀ predicate, filter = some predicate → e.Selects r ctx predicate record := by
  have each := (selects_iff h record).mpr all
  constructor
  · intro predicate hp
    exact each predicate (by simp [hp])
  · intro predicate hp
    exact each predicate (by simp [hp])

end Engine

/-! A shelf of books, asked for a title that is stored within their metadata -/

namespace Shelf

def title : Field where
  name := "title"
  owner := "library.book"
  type := .str "string"
  source := .path "meta.title"
  isLazy := false
  can := none
  depends := none
  inverse := none
  default := none
  unique := false
  indexed := false
  nullable := true
  description := none

def asks : Value := .node "=" (.arr [.str "title", .str ".request.title"])

def book : Resource where
  name := "book"
  space := "library"
  source := some "books"
  singleton := false
  idName := "id"
  fields := [title]
  can := some [("get", asks)]
  description := none

def asked : Context where
  query := {}
  request := .node "title" (.str "Emma")

theorem target_title : asked.scope.lookup "request.title" = some (.str "Emma") := rfl

theorem refers_title : asked.Refers "request.title" := by
  refine ⟨by decide, by decide, fun v hv => ?_⟩
  cases target_title.symm.trans hv
  exact ⟨rfl, rfl⟩

theorem formula_asks : Formula book asked.Refers asks := by
  have plain : title.Plain "meta.title" := by
    refine ⟨rfl, ?_, ?_, ?_, ?_, ?_⟩ <;> decide
  refine .node (m := .variadic .equal) rfl rfl ?_
  simp only [List.forall_mem_cons]
  exact ⟨.field (f := title) rfl plain, .reference rfl refers_title, by simp⟩

theorem resolve_asks :
    resolve asked.scope asks = .ok (.node "=" (.arr [.str "title", .str "\"Emma\""])) := by
  have quoted : Expr.makeLiteral (asked.target "request.title") = .str "\"Emma\"" := by
    simp [Context.target, target_title, Expr.makeLiteral, Expr.quote]
  have rooted : Text.afterChar? '.' ".request.title" = some "request.title" := rfl
  have field := resolve_plain asked.scope (s := "title") (by decide)
  have reference := resolve_reference rooted refers_title
  rw [quoted] at reference
  have items := resolve_arr_eq_ok.mpr ⟨_, .cons field (.cons reference .nil), rfl⟩
  have refers : Expr.isLiteral (.arr [.str "title", .str "\"Emma\""]) = false := by
    simp [Expr.isLiteral, Expr.allLiteral, Expr.unquoted?]
  exact resolve_node_eq_ok.mpr ⟨_, items, by simp [fold, refers, Value.node]⟩

end Shelf

/-- Books are found by their stored title as they would be by the title they show. -/
theorem Engine.eval_preparePredicate_title :
    let p : Value := .node "=" (.arr [.str "meta.title", .str "\"Emma\""])
    preparePredicate ⟨{}, [], {}⟩ Shelf.book Shelf.asked Shelf.asks = .ok p ∧
      ∀ record : Record, Expr.eval (.node "fields" (.obj record)) p =
        Expr.eval (Shelf.asked.recordScope (some (Shelf.book.view record))) Shelf.asks := by
  intro p
  have prepared : preparePredicate ⟨{}, [], {}⟩ Shelf.book Shelf.asked Shelf.asks = .ok p :=
    preparePredicate_eq_ok.mpr ⟨_, Shelf.resolve_asks, rfl⟩
  exact ⟨prepared, eval_preparePredicate _ Shelf.asked Shelf.formula_asks prepared⟩

end RecordGraph
