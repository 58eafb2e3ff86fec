import RecordGraph.Proofs.Permission.Access
import RecordGraph.Proofs.Predicate.Data

/-!
Resolving twice. What resolving puts in is data to a second pass, and a method that it leaves has an
operand that is not literal, then as now. So a permission, which is resolved where the access is decided
and again where it is prepared, is the same after both.
-/
namespace RecordGraph

namespace Value

mutual
/-- Without a map whose only key is `get`. -/
def isGetless : Value → Bool
  | .arr xs => allGetless xs
  | .obj es => es.map Prod.fst != ["get"] && entriesGetless es
  | _ => true

def allGetless : List Value → Bool
  | [] => true
  | x :: xs => isGetless x && allGetless xs

def entriesGetless : List (String × Value) → Bool
  | [] => true
  | (_, x) :: es => isGetless x && entriesGetless es
end

theorem isGetless_arr {xs : List Value} :
    (Value.arr xs).isGetless ↔ ∀ x ∈ xs, x.isGetless := by
  rw [isGetless]
  induction xs with
  | nil => simp [allGetless]
  | cons x xs ih => rw [allGetless, Bool.and_eq_true, ih, List.forall_mem_cons]

theorem isGetless_obj {es : List (String × Value)} :
    (Value.obj es).isGetless ↔ es.map Prod.fst ≠ ["get"] ∧ ∀ e ∈ es, e.2.isGetless := by
  have entries : entriesGetless es ↔ ∀ e ∈ es, e.2.isGetless := by
    induction es with
    | nil => simp [entriesGetless]
    | cons e es ih => rw [entriesGetless, Bool.and_eq_true, ih, List.forall_mem_cons]
  rw [isGetless, Bool.and_eq_true, bne_iff_ne, entries]

theorem isMapless_of_flat {v : Value} (flat : v.arr? = none ∧ v.obj? = none) : v.isMapless := by
  cases v with
  | arr xs => cases flat.1
  | obj es => cases flat.2
  | null | bool | num | str => rfl

end Value

/-- An expression without `get`, whose rooted references do not end with a point and lead to nothing or
to a value without structure. -/
structure Value.ReadsFlat (scope p : Value) : Prop where
  getless : p.isGetless
  quoting : p.Quoting
  flat : ∀ s path, .reference s ∈ p.code → Text.afterChar? '.' s = some path →
    ∀ v, scope.lookup path = some v → v.arr? = none ∧ v.obj? = none

namespace Value.ReadsFlat
variable {scope : Value}

theorem item {xs : List Value} (h : ReadsFlat scope (.arr xs)) {x : Value} (hx : x ∈ xs) :
    ReadsFlat scope x where
  getless := isGetless_arr.mp h.getless x hx
  quoting := h.quoting.item hx
  flat s path hs := h.flat s path (mem_code_arr.mpr ⟨x, hx, hs⟩)

theorem entry {es : List (String × Value)} (h : ReadsFlat scope (.obj es)) {e : String × Value}
    (he : e ∈ es) : ReadsFlat scope e.2 where
  getless := (isGetless_obj.mp h.getless).2 e he
  quoting := h.quoting.entry he
  flat s path hs := h.flat s path (mem_code_obj.mpr ⟨e, he, .inr hs⟩)

theorem resolve_reference {s path : String} (h : ReadsFlat scope (.str s))
    (rooted : Text.afterChar? '.' s = some path) :
    ∃ v, v.isMapless ∧ resolve scope (.str s) = .ok (Expr.makeLiteral v) := by
  have flat : ((scope.lookup path).getD .null).arr? = none ∧
      ((scope.lookup path).getD .null).obj? = none := by
    cases hv : scope.lookup path with
    | none => exact ⟨rfl, rfl⟩
    | some v => exact h.flat s path (by simp [code_rooted rooted]) rooted v hv
  refine ⟨_, isMapless_of_flat flat, ?_⟩
  rw [resolve, rooted, ← resolveReference_eq (h.quoting.closed rooted) flat.1]

end Value.ReadsFlat

theorem Expr.eq_get_of_method {name : String} (h : Expr.Method.ofName? name = some .get) :
    name = "get" := by
  unfold Expr.Method.ofName? at h
  split at h <;> first | rfl | cases h

section residues
variable {scope p q : Value}

/-- What is left after one pass is left by the next. -/
theorem resolve_of_resolve (reads : Value.ReadsFlat scope p) (h : resolve scope p = .ok q) :
    resolve scope q = .ok q := by
  induction p generalizing q with
  | null | bool | num =>
    cases h
    rfl
  | str s =>
    cases rooted : Text.afterChar? '.' s with
    | none =>
      have plain := resolve_plain scope rooted
      cases plain.symm.trans h
      exact plain
    | some path =>
      obtain ⟨v, mapless, hv⟩ := reads.resolve_reference rooted
      cases hv.symm.trans h
      exact v.resolve_makeLiteral mapless scope
  | arr xs ih =>
    obtain ⟨ys, hys, rfl⟩ := resolve_arr_eq_ok.mp h
    refine resolve_arr_eq_ok.mpr ⟨ys, ?_, rfl⟩
    rw [List.forall₂_same]
    intro y hy
    obtain ⟨x, hx, hxy⟩ := hys.exists_left hy
    exact ih x hx (reads.item hx) hxy
  | obj es ih =>
    obtain ⟨fs, hfs, hfold⟩ := resolve_obj_eq_ok.mp h
    rcases fold_eq_ok hfold with ⟨rfl, -⟩ | ⟨name, args, m, w, rfl, hm, literal, hw, rfl⟩
    · refine resolve_obj_eq_ok.mpr ⟨fs, ?_, hfold⟩
      rw [List.forall₂_same]
      intro f hf
      obtain ⟨e, he, -, hef⟩ := hfs.exists_left hf
      exact ⟨rfl, ih e he (reads.entry he) hef⟩
    · -- the result of a method other than `get` holds no keys, so as a literal it is data
      have hget : m ≠ .get := by
        rintro rfl
        obtain ⟨e, es, ⟨rfl, -⟩, hrest, rfl⟩ := List.forall₂_cons_right_iff.mp hfs
        cases hrest
        exact (Value.isGetless_obj.mp reads.getless).1 (by simp [Expr.eq_get_of_method hm])
      exact w.resolve_makeLiteral (mapless_of_eval hm hget literal hw) scope

end residues

/-! Permissions -/

section permissions
variable {r : Resource} {ctx : Context}

/-- The predicates that are collected are maps, and resolved. -/
theorem stays_of_collectRules {id : String} {rules : List (String × Value)} {ps : List Value}
    (reads : ∀ rule ∈ rules, Value.ReadsFlat ctx.scope rule.2)
    (h : collectRules ctx.scope id rules = .ok (some ps)) :
    ∀ p ∈ ps, resolve ctx.scope p = .ok p ∧ p.obj? ≠ none := by
  induction rules generalizing ps with
  | nil =>
    cases h
    simp
  | cons rule rules ih =>
    obtain ⟨key, rule⟩ := rule
    rw [List.forall_mem_cons] at reads
    cases hq : resolve ctx.scope rule with
    | error e => simp [collectRules, hq] at h
    | ok q =>
      by_cases decided : q.obj? = none
      · by_cases ht : Expr.truthy q
        · rw [collectRules_holds hq decided ht] at h
          cases h
        · rw [collectRules_fails hq decided ht] at h
          exact ih reads.2 h
      · rw [collectRules_depends hq decided] at h
        obtain ⟨found, hfound, hps⟩ := Except.map_eq_ok.mp h
        obtain ⟨rest, rfl, rfl⟩ := Option.map_eq_some_iff.mp hps
        exact List.forall_mem_cons.mpr
          ⟨⟨resolve_of_resolve reads.1 hq, decided⟩, ih reads.2 hfound⟩

theorem resolve_ofCollected {scope predicate : Value} {found : Option (List Value)}
    (stays : ∀ ps, found = some ps → ∀ p ∈ ps, resolve scope p = .ok p ∧ p.obj? ≠ none)
    (h : Access.ofCollected found = .only predicate) : resolve scope predicate = .ok predicate := by
  rcases found with _ | _ | ⟨p, _ | ⟨q, ps⟩⟩
  · cases h
  · cases h
  · cases h
    exact (stays _ rfl _ (by simp)).1
  · cases h
    have each := stays _ rfl
    exact resolve_or (by simp) (fun p hp => (each p hp).1) fun p hp => (each p hp).2

/-- The predicate of an access is resolved. -/
theorem resolve_of_can {action : String} {via : Option Field} {predicate : Value}
    (reads : ∀ rule ∈ r.covering (Text.lower action), Value.ReadsFlat ctx.scope rule.2)
    (h : can r action ctx via = .ok (.only predicate)) :
    resolve ctx.scope predicate = .ok predicate := by
  obtain ⟨granted, -, hruled⟩ := Except.bind_eq_ok.mp h
  cases granted with
  | true => cases hruled
  | false =>
    have ruled : ruledAccess r (Text.lower action) ctx = .ok (.only predicate) := hruled
    by_cases uncovered : r.covering (Text.lower action) = []
    · rw [ruledAccess_uncovered ctx uncovered] at ruled
      cases ruled
    · rw [ruledAccess_covered ctx uncovered] at ruled
      obtain ⟨found, hfound, honly⟩ := Except.map_eq_ok.mp ruled
      exact resolve_ofCollected (fun ps hps => stays_of_collectRules reads (hps ▸ hfound)) honly

end permissions

/-- Resolving is idempotent. For a permission this means that the predicate that access comes to is the
one that is translated for the store, although it is resolved again on the way. -/
theorem resolve_idempotent :
    (∀ scope p q, Value.ReadsFlat scope p → resolve scope p = .ok q → resolve scope q = .ok q) ∧
      ∀ (e : Engine) (r : Resource) (ctx : Context) (action : String) (via : Option Field)
        (predicate : Value),
        (∀ rule ∈ r.covering (Text.lower action), Value.ReadsFlat ctx.scope rule.2) →
        can r action ctx via = .ok (.only predicate) →
        resolve ctx.scope predicate = .ok predicate ∧
          e.preparePredicate r ctx predicate = e.server.toStorage r predicate := by
  refine ⟨fun _ _ _ => resolve_of_resolve, fun e r ctx action via predicate reads h => ?_⟩
  have stays := resolve_of_can reads h
  exact ⟨stays, by rw [Engine.preparePredicate, stays]⟩

namespace Shelf

/-- A request for a title that looks like a reference between quotes that do not match. -/
def quoted : Context where
  query := {}
  request := .node "title" (.str "\".request.title'")

def sought : Value := .node "=" (.arr [.str "title", .str "\"\".request.title'\""])

theorem target_quoted : quoted.scope.lookup "request.title" = some (.str "\".request.title'") := rfl

theorem readsFlat_asks : Value.ReadsFlat quoted.scope asks := by
  have code : asks.code = [.key "=", .reference "title", .reference ".request.title"] := by
    simp [asks, Value.node, Value.code, codeOfEntries, codeOfItems, Expr.unquoted?, Expr.isQuote]
  have rooted {s path : String} (hs : .reference s ∈ asks.code)
      (h : Text.afterChar? '.' s = some path) : path = "request.title" := by
    simp only [code, List.mem_cons, Code.reference.injEq, reduceCtorEq, false_or, List.not_mem_nil,
      or_false] at hs
    obtain rfl | rfl := hs
    · cases h
    · exact Option.some.inj (h.symm.trans rfl)
  refine ⟨rfl, fun s path hs h => ?_, fun s path hs h v hv => ?_⟩
  · cases rooted hs h
    decide
  · cases rooted hs h
    cases target_quoted.symm.trans hv
    exact ⟨rfl, rfl⟩

theorem resolve_quoted : resolve quoted.scope asks = .ok sought := by
  have field := resolve_plain quoted.scope (s := "title") (by decide)
  have reference : resolve quoted.scope (.str ".request.title") =
      .ok (.str "\"\".request.title'\"") := by
    have rooted : Text.afterChar? '.' ".request.title" = some "request.title" := rfl
    rw [resolve_rooted rooted (by decide), target_quoted]
    simp [Lookup.form, Expr.quote]
  have items := resolve_arr_eq_ok.mpr ⟨_, .cons field (.cons reference .nil), rfl⟩
  have refers : Expr.isLiteral (.arr [.str "title", .str "\"\".request.title'\""]) = false := by
    simp [Expr.isLiteral, Expr.allLiteral, Expr.unquoted?]
  exact resolve_node_eq_ok.mpr ⟨_, items, by simp [fold, refers, sought, Value.node]⟩

theorem covering_book : book.covering (Text.lower "get.resource") = [("get", asks)] := rfl

theorem can_quoted : can book "get.resource" quoted none = .ok (.only sought) := by
  rw [can_none, ruledAccess_covered _ (by simp [covering_book]), covering_book,
    collectRules_depends resolve_quoted (by simp [sought, Value.node, Value.obj?])]
  rfl

end Shelf

/-- The text that is asked for is put in between quotes of its own, and stays as it is. -/
theorem resolve_idempotent_quoted :
    Value.ReadsFlat Shelf.quoted.scope Shelf.asks ∧
      resolve Shelf.quoted.scope Shelf.asks = .ok Shelf.sought ∧
      can Shelf.book "get.resource" Shelf.quoted none = .ok (.only Shelf.sought) ∧
      resolve Shelf.quoted.scope Shelf.sought = .ok Shelf.sought ∧
      Engine.preparePredicate ⟨{}, [], {}⟩ Shelf.book Shelf.quoted Shelf.sought =
        Server.toStorage {} Shelf.book Shelf.sought := by
  have once := resolve_idempotent.1 _ _ _ Shelf.readsFlat_asks Shelf.resolve_quoted
  have prepared := resolve_idempotent.2 ⟨{}, [], {}⟩ Shelf.book Shelf.quoted "get.resource" none
    Shelf.sought (by simpa [Shelf.covering_book] using Shelf.readsFlat_asks) Shelf.can_quoted
  exact ⟨Shelf.readsFlat_asks, Shelf.resolve_quoted, Shelf.can_quoted, once, prepared.2⟩

end RecordGraph
