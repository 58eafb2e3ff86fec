import RecordGraph.Proofs.Run.Render
import RecordGraph.Proofs.Run.Stages
import RecordGraph.Run.Execute

/-!
Reading stays within permissions. A read that succeeds hands over one batch at the root and what is
rendered below it; all of it is open to the requester.
-/
namespace RecordGraph

theorem Query.scope_root (q : Query) : ∃ scope, q.scope Level.root = .ok scope := by
  unfold Query.scope
  split
  · exact ⟨.state q, rfl⟩
  · exact ⟨.state q.rootFeatures, rfl⟩

namespace Engine
variable {e : Engine} {ctx : Context} {r : Resource}

/-- What a plan is made of. -/
structure Planned (e : Engine) (ctx : Context) (r : Resource) (endpoint : Endpoint) (access : Access)
    (source : String) (p : Plan) (scope : Scope) (prepared keyset : List Value) : Prop where
  governed : ctx.query.scope Level.root = .ok scope
  window : Window.ofPage scope.page? e.settings.pageSize = .ok p.window
  many : p.many = (endpoint = .resource && !r.singleton)
  settled : e.prepareAll r ctx access (scope.state?.bind Query.filter) = .ok prepared
  continued : e.keysetStorage r p.window p.many = .ok keyset
  sorted : e.prepareSort r (scope.state?.bind Query.sort) = .ok p.fetch.sort
  source : p.fetch.source = source
  predicate : p.fetch.predicate =
    conjoin (prepared ++ keyset ++ (ctx.query.record.map (idPredicate r.idKey)).toList)

theorem planned_of_plan {endpoint : Endpoint} {access : Access} {source : String} {p : Plan}
    (h : e.plan ctx r endpoint access source = .ok p) :
    ∃ scope prepared keyset, e.Planned ctx r endpoint access source p scope prepared keyset := by
  obtain ⟨scope, governed, h⟩ := Except.monad_bind_eq_ok.mp h
  obtain ⟨window, hwindow, h⟩ := Except.monad_bind_eq_ok.mp h
  obtain ⟨predicates, hpredicates, h⟩ := Except.monad_bind_eq_ok.mp h
  obtain ⟨sort, sorted, h⟩ := Except.monad_bind_eq_ok.mp h
  cases h
  obtain ⟨prepared, hprepared, hpredicates⟩ := Except.monad_bind_eq_ok.mp hpredicates
  obtain ⟨keyset, continued, hpredicates⟩ := Except.monad_bind_eq_ok.mp hpredicates
  cases hpredicates
  exact ⟨scope, prepared, keyset, governed, hwindow, rfl, hprepared, continued, sorted, rfl, rfl⟩

/-- A plan is for a list if its resource is queried as a whole and is not a single record. -/
theorem many_of_plan {endpoint : Endpoint} {access : Access} {source : String} {p : Plan}
    (h : e.plan ctx r endpoint access source = .ok p) :
    p.many = true ↔ endpoint = .resource ∧ r.singleton = false := by
  obtain ⟨_, _, _, planned⟩ := planned_of_plan h
  simp [planned.many]

/-- The fetch of a plan is under the permission and the filter of the root, among others. -/
theorem plan_eq_ok {endpoint : Endpoint} {access : Access} {source : String} {p : Plan}
    (h : e.plan ctx r endpoint access source = .ok p) :
    ∃ scope prepared others, ctx.query.scope Level.root = .ok scope ∧
      e.prepareAll r ctx access (scope.state?.bind Query.filter) = .ok prepared ∧
      p.fetch.predicate = conjoin (prepared ++ others) := by
  obtain ⟨scope, prepared, keyset, planned⟩ := planned_of_plan h
  have joined := planned.predicate
  rw [List.append_assoc] at joined
  exact ⟨scope, prepared, _, planned.governed, planned.settled, joined⟩

theorem mem_of_mem_turnPage {window : Window} {path : Option String} {fetched : Fetched}
    {records : List Record} {page : Entries PageMeta}
    (h : e.turnPage r window path fetched = .ok (records, page)) {record : Record}
    (hmem : record ∈ records) : record ∈ fetched.records := by
  unfold turnPage at h
  split at h
  · cases h
    exact hmem
  · obtain ⟨last, -, h⟩ := Except.map_eq_ok.mp h
    cases h
    exact List.mem_of_mem_take hmem

theorem mem_of_theRecord {q : Query} {endpoint : Endpoint} {fetched : Fetched} {record : Record}
    (h : theRecord q r endpoint fetched = .ok record) : record ∈ fetched.records := by
  unfold theRecord at h
  split at h
  · rename_i first rest hrecords
    cases h
    simp [hrecords]
  · split at h <;> cases h

/-- Fetched records may be rendered at the root. -/
theorem permits_fetched {access : Access} {source : String} {p : Plan} {fetched : Fetched}
    (haccess : can r ("get." ++ ctx.query.endpoint.name) ctx none = .ok access)
    (hopen : access.isDenied = false)
    (hplan : e.plan ctx r ctx.query.endpoint access source = .ok p)
    (hfetched : e.store.fetch p.fetch = .ok fetched) (fields : List Field)
    {records : List Record} (hrecords : ∀ record ∈ records, record ∈ fetched.records) :
    e.Permits ctx ⟨none, r, fields, records.map some, Level.root⟩ := by
  obtain ⟨scope, prepared, others, hscope, hprepared, hpredicate⟩ := plan_eq_ok hplan
  have matched := Store.isMatch_of_fetch hfetched
  rw [hpredicate] at matched
  refine permits_of_prepareAll haccess hopen hscope hprepared fun record h p hp => ?_
  obtain ⟨_, hmem, ⟨⟩⟩ := List.mem_map.mp h
  have joined := Store.isMatch_conjoin.mp (matched record (hrecords record hmem))
  exact joined p (List.mem_append_left _ hp)

/-- A resource without a source has no record to render. -/
theorem permits_computed {access : Access}
    (haccess : can r ("get." ++ ctx.query.endpoint.name) ctx none = .ok access)
    (hopen : access.isDenied = false) (fields : List Field) :
    e.Permits ctx ⟨none, r, fields, [none], Level.root⟩ := by
  obtain ⟨scope, hscope⟩ := ctx.query.scope_root
  exact ⟨⟨access, haccess, hopen, by simp⟩, ⟨scope, hscope, by simp⟩⟩

/-- What is loaded of an open resource may be rendered at the root. -/
theorem permits_loaded {o : Opening} {path : Option String} {l : Loaded}
    (opened : e.opening ctx ctx.query.endpoint = .ok o)
    (loads : e.Loads ctx ctx.query.endpoint path o l) :
    e.Permits ctx ⟨none, o.resource, l.fields, l.records, Level.root⟩ := by
  obtain ⟨-, allowed, opened, -⟩ := opening_eq_ok.mp opened
  cases loads with
  | computed => exact permits_computed allowed opened _
  | list _ planned fetches _ turned =>
    exact permits_fetched allowed opened planned fetches _ fun _ => mem_of_mem_turnPage turned
  | @one _ _ fetched record _ planned fetches _ first =>
    have among : ∀ other ∈ [record], other ∈ fetched.records := by simpa using mem_of_theRecord first
    exact permits_fetched allowed opened planned fetches _ among

/-- A read of a resource that succeeds renders one batch at the root, which is permitted. -/
theorem getResource_eq_ok {path : Option String} {response : Response}
    (h : (e.getResource ctx ctx.query.endpoint path).outcome = .ok response) :
    ∃ r top rows, e.findResource ctx.query = .ok r ∧ top.via = none ∧ top.resource = r ∧
      top.level = Level.root ∧ e.Permits ctx top ∧
      (e.render ctx (e.levelBound ctx.query) top).outcome = .ok rows ∧
      (e.getResource ctx ctx.query.endpoint path).handed =
        (e.render ctx (e.levelBound ctx.query) top).handed := by
  obtain ⟨o, l, rows, opened, loads, rendered, -⟩ := outcome_getResource.mp h
  refine ⟨o.resource, _, rows, (opening_eq_ok.mp opened).1, rfl, rfl, rfl, permits_loaded opened loads,
    rendered, ?_⟩
  rw [getResource_eq, Run.handed_bind_quiet opened rfl, Run.handed_bind_quiet (load_eq_ok.mpr loads)
    handed_load, Run.handed_bind rendered, Run.handed_pure, List.append_nil, renderRoot]

theorem execute_reads {q : Query} (request : Value) (reads : q.action.getD .get = .get)
    (targets : q.endpoint = .resource ∨ q.endpoint = .record ∨ q.endpoint = .field) :
    e.execute q request = e.getResource ⟨q, request⟩ q.endpoint none := by
  unfold execute get
  rw [reads]
  obtain hq | hq | hq := targets <;> simp [hq]

/-- A read of a resource, a record or a field that succeeds hands over one batch at the root and, for
every relation that is rendered deeply, a batch one level below. Each of them is open to the requester,
and its records satisfy the permission and the filter of its level. -/
theorem handed_permitted (e : Engine) (q : Query) (request : Value)
    (reads : q.action.getD .get = .get)
    (targets : q.endpoint = .resource ∨ q.endpoint = .record ∨ q.endpoint = .field)
    {response : Response} (h : (e.execute q request).outcome = .ok response) :
    ∃ r root nested, e.findResource q = .ok r ∧ (e.execute q request).handed = root :: nested ∧
      root.via = none ∧ root.resource = r ∧ root.level = Level.root ∧
      (∀ b ∈ root :: nested, e.Permits ⟨q, request⟩ b) ∧
      (∀ b ∈ nested, Relation.TransGen (Batch.Below e) root b) ∧
      ∀ b ∈ root :: nested, ∀ f, b.Deep ⟨q, request⟩ f →
        ∃ child ∈ nested, child.via = some f ∧ b.Below e child := by
  rw [execute_reads request reads targets] at h ⊢
  obtain ⟨r, root, rows, hr, hvia, hresource, hlevel, permits, hrows, hhanded⟩ := getResource_eq_ok h
  obtain ⟨nested, hnested, below, deep⟩ := render_eq_ok hrows
  refine ⟨r, root, nested, hr, hhanded.trans hnested, hvia, hresource, hlevel, ?_, ?_, deep⟩
  · exact List.forall_mem_cons.mpr ⟨permits, fun b hb => (below b hb).2⟩
  · exact fun b hb => (below b hb).1

end Engine

/-! A library of books, read with their sequels -/

namespace Shelf

def sequel : Field := { title with name := "sequel", type := .str "@book", source := .path "sequel" }

def library : Engine where
  server := {
    spaces := [("library", ⟨"library", [("book", { book with fields := [title, sequel] })]⟩)] }
  store := [("books", [
    [("id", .str "1"), ("meta", .node "title" (.str "Emma")), ("sequel", .str "2")],
    [("id", .str "2"), ("meta", .node "title" (.str "Emma"))],
    [("id", .str "3"), ("meta", .node "title" (.str "Persuasion"))]])]
  settings := {}

def followed : Query where
  space := some "library"
  resource := some "book"
  take := some [("sequel", .nested {})]

end Shelf

/-- Books are read together with their sequels, both under the permission of the resource. -/
theorem Engine.handed_permitted_sequel :
    let ctx : Context := ⟨Shelf.followed, Shelf.asked.request⟩
    ∃ root child, (Shelf.library.execute ctx.query ctx.request).handed = [root, child] ∧
      root.via = none ∧ child.via.map Field.name = some "sequel" ∧
      Shelf.library.Permits ctx root ∧ Shelf.library.Permits ctx child := by
  intro ctx
  have vias : (Shelf.library.execute ctx.query ctx.request).handed.map
      (fun b => b.via.map Field.name) = [none, some "sequel"] := by decide +kernel
  have ends : (Shelf.library.execute ctx.query ctx.request).outcome.toOption.isSome := by
    decide +kernel
  cases h : (Shelf.library.execute ctx.query ctx.request).outcome with
  | error e =>
    rw [h] at ends
    cases ends
  | ok response =>
    obtain ⟨r, root, nested, -, hhanded, hvia, -, -, permits, -⟩ :=
      handed_permitted Shelf.library ctx.query ctx.request rfl (.inl rfl) h
    rw [hhanded] at vias
    obtain ⟨-, hnested⟩ := List.cons_eq_cons.mp vias
    obtain ⟨child, rfl, hchild⟩ := List.map_eq_singleton_iff.mp hnested
    exact ⟨root, child, hhanded, hvia, hchild, permits root (by simp), permits child (by simp)⟩

end RecordGraph
