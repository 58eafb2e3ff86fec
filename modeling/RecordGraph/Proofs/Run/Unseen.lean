import RecordGraph.Proofs.Run.Hidden
import RecordGraph.Proofs.Run.Visible

/-!
A field that the requester may not get does not show in any answer, as long as nothing else reads what is
stored for it: stores that differ only there answer alike.
-/
namespace RecordGraph

namespace Engine
variable {e : Engine} {collection path : String} {request : Value} {r s : Resource} {f g : Field}
  {q : Query} {store : Store} {level : Level}

/-! Levels -/

section hidden
variable (hides : e.Hides request r f collection path)
include hides

theorem Hides.other (gettable : e.Gettable ⟨q, request⟩ s g) : ¬(s = r ∧ g = f) := by
  rintro ⟨-, rfl⟩
  exact hides.denied q gettable.allowed

/-- A field that may be got has the same value on corresponding records. -/
theorem fieldValue_same (known : s ∈ e.resources) (gettable : e.Gettable ⟨q, request⟩ s g)
    {a b : Option Record} (h : Option.Rel (e.Counterparts collection path s) a b) :
    fieldValue ⟨q, request⟩ s g a = fieldValue ⟨q, request⟩ s g b := by
  cases h with
  | none => rfl
  | some h =>
    exact h.same fun stored =>
      (hides.fields s known stored g gettable.mem).resolve_left (hides.other gettable) q

theorem parentIds_same (known : s ∈ e.resources) {records records' : List (Option Record)}
    (h : List.Forall₂ (Option.Rel (e.Counterparts collection path s)) records records') :
    parentIds s records = parentIds s records' := by
  have ids (a b : Option Record) (hab : Option.Rel (e.Counterparts collection path s) a b) :
      (a.bind fun stored => stored.read s.idKey) = b.bind fun stored => stored.read s.idKey :=
    hab.bind_eq fun a b h => h.same fun stored => (hides.ids s known stored).read
  exact List.forall₂_eq_eq_eq ▸ List.rel_map (fun a b hab => congrArg (·.getD .null) (ids a b hab)) h

/-- The permission and the filter of a level do not tell corresponding records apart. -/
theorem unread_prepareAll (known : s ∈ e.resources) (stored : s.source = some collection)
    {action : String} {via : Option Field} {access : Access} {scope : Scope} {predicates : List Value}
    (granted : can s action ⟨q, request⟩ via = .ok access) (governed : q.scope level = .ok scope)
    (overlooks : e.LevelOverlooks ⟨q, request⟩ path s level)
    (prepared : e.prepareAll s ⟨q, request⟩ access (scope.state?.bind Query.filter) = .ok predicates) :
    ∀ p ∈ predicates, Unread path (Store.isMatch (some p)) := by
  intro p hp
  obtain ⟨predicate, hpredicate, hprepared⟩ := (Except.mapM_eq_ok.mp prepared).exists_left hp
  rcases List.mem_append.mp hpredicate with haccess | hfilter
  · exact hides.permissions s known stored q action via access predicate p granted
      (Option.mem_toList.mp haccess) hprepared
  · exact overlooks.filter scope predicate p governed (Option.mem_toList.mp hfilter) hprepared

end hidden

/-- Corresponding records are ordered alike by the sort keys of a level. -/
theorem read_prepareSort {scope : Scope} {keys : List SortKey} (governed : q.scope level = .ok scope)
    (overlooks : s.source = some collection → e.LevelOverlooks ⟨q, request⟩ path s level)
    (sorted : e.prepareSort s (scope.state?.bind Query.sort) = .ok keys) :
    ∀ key ∈ keys, ∀ a b, e.Counterparts collection path s a b → a.read key.path = b.read key.path :=
  fun key hkey _ _ h => h.same fun stored => (overlooks stored).sort scope keys governed sorted key hkey

/-! Targets -/

/-- A relation leads to a target, and what is read of the targets is the same of corresponding ones. -/
structure LeadsAlike (e : Engine) (collection path : String) (s : Resource) (g : Field) (t : Target) :
    Prop where
  linked : e.server.target? s g = some t.resource
  stored : t.resource.source = some t.source
  matched : ∀ p ∈ t.predicates, ∀ a b, e.Counterparts collection path t.resource a b →
    Store.isMatch (some p) a = Store.isMatch (some p) b
  sorted : ∀ key ∈ t.sort, ∀ a b, e.Counterparts collection path t.resource a b →
    a.read key.path = b.read key.path

section stores
variable (hides : e.Hides request r f collection path) (agree : e.store.AgreeOff collection path store)

section loading
variable {t : Target} (leads : e.LeadsAlike collection path s g t) (known : s ∈ e.resources)
include hides agree leads known

/-- Through what the store holds, corresponding targets are loaded. -/
theorem loadStored_agrees (gettable : e.Gettable ⟨q, request⟩ s g) {source p : String}
    (stored : s.source = some source) (held : g.source = .path p) {records records' : List (Option Record)}
    (h : List.Forall₂ (Option.Rel (e.Counterparts collection path s)) records records') :
    Run.Agrees (List.Forall₂ (List.Forall₂ (e.Counterparts collection path t.resource)))
      (e.loadStored s g t source p records) ((e.on store).loadStored s g t source p records') := by
  have link : g.link?.isSome := by
    obtain ⟨link, hlink, -⟩ := Option.bind_eq_some_iff.mp leads.linked
    simp [hlink]
  have linked := mem_resources_of_target? leads.linked
  have follows : Store.Follows (e.Counterparts collection path s) (e.Counterparts collection path t.resource)
      (relatedRequest s g t source p (parentIds s records)).relation := {
    parent a b h := h.same fun stored => (hides.ids s known stored).got
    field a b h := h.same fun stored =>
      (hides.relations s known stored g gettable.mem link p held).resolve_left (hides.other gettable)
    target a b h := h.same fun stored => (hides.ids _ linked stored).got
    inverse key hkey a b h := by
      obtain ⟨name, hname, rfl⟩ := Option.map_eq_some_iff.mp hkey
      exact h.same fun stored =>
        (hides.inverses s known g gettable.mem _ leads.linked stored name hname).resolve_left
          (hides.other gettable) }
  have found := Store.answer_agrees (Store.fetchRelated_agrees
    (relatedRequest s g t source p (parentIds s records))
    (collection_agrees agree stored) (collection_agrees agree leads.stored) follows
    (fun a b h => Store.isMatch_conjoin_same fun p hp => leads.matched p hp a b h) leads.sorted)
  rw [loadStored, loadStored, ← parentIds_same hides known h]
  exact Run.Agrees.bind found fun groups groups' hgroups =>
    .ok (List.forall₂_map_map fun id _ => lookup_agrees hgroups (idText id))

/-- Through computed ids, corresponding targets are loaded. -/
theorem loadComputed_agrees (mem : g ∈ s.fields) (computes : Computes s g) {values : List Value}
    (held : ∀ v ∈ values, ∃ record : Option Record,
      (∀ stored, record = some stored → stored ∈ e.recordsOf s) ∧
        fieldValue ⟨q, request⟩ s g record = .ok v) :
    Run.Agrees (List.Forall₂ (List.Forall₂ (e.Counterparts collection path t.resource)))
      (e.loadComputed t values) ((e.on store).loadComputed t values) := by
  have linked := mem_resources_of_target? leads.linked
  unfold loadComputed
  dsimp only
  generalize hids : distinctIds (values.map (linkedIds t.resource.idKey)).flatten = ids
  have blind (a b : Record) (h : e.Counterparts collection path t.resource a b) (id : Value)
      (hid : id ∈ ids) : Expr.eval (.node "fields" (.obj a)) (Expr.makeLiteral id) =
        Expr.eval (.node "fields" (.obj b)) (Expr.makeLiteral id) := by
    obtain ⟨row, hrow, hid⟩ := List.mem_flatten.mp (mem_of_mem_distinctIds (hids ▸ hid))
    obtain ⟨v, hv, rfl⟩ := List.mem_map.mp hrow
    obtain ⟨record, stored, hvalue⟩ := held v hv
    have same := h.same fun collected =>
      hides.computed s known g mem computes _ leads.linked collected q record v stored hvalue id hid
    exact same
  have matched (a b : Record) (h : e.Counterparts collection path t.resource a b) :
      Store.isMatch (computedRequest t ids).predicate a =
        Store.isMatch (computedRequest t ids).predicate b := by
    have among := Store.isMatch_inPredicate_same
      (h.same fun stored => (hides.ids _ linked stored).referred) (blind a b h)
    exact Store.isMatch_conjoin_same
      (List.forall_mem_cons.mpr ⟨among, fun p hp => leads.matched p hp a b h⟩)
  have found := Store.answer_agrees (Store.fetch_agrees (computedRequest t ids)
    (collection_agrees agree leads.stored) matched leads.sorted)
  have keyed (a b : Record) (h : e.Counterparts collection path t.resource a b) :
      a.read t.resource.idKey = b.read t.resource.idKey :=
    h.same fun stored => (hides.ids _ linked stored).read
  cases ids with
  | nil => exact .ok (List.forall₂_map_map fun _ _ => .nil)
  | cons id ids =>
    exact Run.Agrees.bind found fun fetched fetched' hfetched =>
      .ok (List.forall₂_map_map fun ids _ => pick_agrees keyed _ hfetched.1 ids)

/-- Corresponding targets are loaded for corresponding records. -/
theorem loadTargets_agrees (gettable : e.Gettable ⟨q, request⟩ s g) {records records' : List (Option Record)}
    (h : List.Forall₂ (Option.Rel (e.Counterparts collection path s)) records records')
    {values : List Value} (hvalues : records.mapM (fieldValue ⟨q, request⟩ s g) = .ok values) :
    Run.Agrees (List.Forall₂ (List.Forall₂ (e.Counterparts collection path t.resource)))
      (e.loadTargets s g t records values) ((e.on store).loadTargets s g t records' values) := by
  unfold loadTargets
  split
  · rename_i p source held hsource
    exact loadStored_agrees hides agree leads known gettable hsource held h
  · rename_i computes
    refine loadComputed_agrees (q := q) hides agree leads known gettable.mem computes fun v hv => ?_
    obtain ⟨record, hrecord, hvalue⟩ := (Except.mapM_eq_ok.mp hvalues).exists_left hv
    obtain ⟨record', -, hrel⟩ := h.flip.exists_left hrecord
    refine ⟨record, fun stored heq => ?_, hvalue⟩
    cases hrel with
    | none => cases heq
    | some hrel =>
      cases heq
      exact hrel.1

end loading

/-! Rendering -/

variable (overlooks : e.Overlooks request collection path q)

include hides overlooks in
/-- The target of a relation, at a level of a query that overlooks the path. -/
theorem leadsAlike_of_target (reached : e.Reaches q s level) (mem : g ∈ s.fields) {link : String}
    (hlink : g.link? = some link) {t : Target} (ht : e.target ⟨q, request⟩ s g link level = .ok t) :
    e.LeadsAlike collection path s g t ∧ e.Reaches q t.resource t.level ∧
      ∀ g ∈ t.fields, e.Gettable ⟨q, request⟩ t.resource g := by
  obtain ⟨access, scope, settled⟩ := target_eq_ok.mp ht
  have linked : e.server.target? s g = some t.resource := by
    rw [Server.target?, hlink]
    exact settled.resolved
  have entered : e.Reaches q t.resource t.level := settled.entered ▸ .enter reached mem linked
  refine ⟨⟨linked, settled.stored, fun p hp a b h => ?_, ?_⟩, entered, fun g hg =>
    gettable_of_takeFields settled.taken hg⟩
  · exact h.same fun stored => unread_prepareAll hides entered.known stored settled.granted
      settled.governed (overlooks.levels _ _ entered stored) settled.prepared p hp
  · exact read_prepareSort settled.governed (overlooks.levels _ _ entered) settled.sorted

/-- Renderers that make the same of corresponding records. -/
def RendersAlike (e : Engine) (q : Query) (request : Value) (collection path : String)
    (render render' : Renderer) : Prop :=
  ∀ (b : Batch) (records' : List (Option Record)), e.Reaches q b.resource b.level →
    (∀ g ∈ b.fields, e.Gettable ⟨q, request⟩ b.resource g) →
      List.Forall₂ (Option.Rel (e.Counterparts collection path b.resource)) b.records records' →
        Run.Agrees Eq (render b) (render' { b with records := records' })

include hides agree overlooks

theorem renderRelated_agrees {render render' : Renderer}
    (below : e.RendersAlike q request collection path render render') (reached : e.Reaches q s level)
    (gettable : e.Gettable ⟨q, request⟩ s g) {link : String} (hlink : g.link? = some link)
    {records records' : List (Option Record)}
    (h : List.Forall₂ (Option.Rel (e.Counterparts collection path s)) records records')
    {values : List Value} (hvalues : records.mapM (fieldValue ⟨q, request⟩ s g) = .ok values) :
    Run.Agrees Eq (e.renderRelated ⟨q, request⟩ render s g link records values level)
      ((e.on store).renderRelated ⟨q, request⟩ render' s g link records' values level) := by
  refine Run.Agrees.after fun t ht => ?_
  obtain ⟨leads, entered, selected⟩ :=
    leadsAlike_of_target hides overlooks reached gettable.mem hlink ht
  have loaded := loadTargets_agrees hides agree leads reached.known gettable h hvalues
  refine Run.Agrees.bind loaded fun groups groups' hgroups => ?_
  have kept : List.Forall₂ (List.Forall₂ (e.Counterparts collection path t.resource))
      (t.kept g groups) (t.kept g groups') :=
    List.rel_map (fun _ _ h => List.forall₂_take _ h) hgroups
  have lengths : (t.kept g groups).map List.length = (t.kept g groups').map List.length :=
    List.forall₂_eq_eq_eq ▸ List.rel_map (fun _ _ h => h.length_eq) kept
  have rows := below (t.child g groups) ((t.kept g groups').flatten.map some) entered selected
    (List.rel_map (fun _ _ h => .some h) (List.rel_flatten kept))
  refine Run.Agrees.bind rows fun rendered rendered' hrendered => .ok ?_
  change (deal ((t.kept g groups).map List.length) rendered).map (linkedValue g) =
    (deal ((t.kept g groups').map List.length) rendered').map (linkedValue g)
  rw [lengths, hrendered]

theorem renderColumn_agrees {render render' : Renderer}
    (below : e.RendersAlike q request collection path render render') {b : Batch}
    (reached : e.Reaches q b.resource b.level) (gettable : e.Gettable ⟨q, request⟩ b.resource g)
    {records' : List (Option Record)}
    (h : List.Forall₂ (Option.Rel (e.Counterparts collection path b.resource)) b.records records')
    (scope : Scope) :
    Run.Agrees Eq (e.renderColumn ⟨q, request⟩ render scope b g)
      ((e.on store).renderColumn ⟨q, request⟩ render' scope { b with records := records' } g) := by
  have values : b.records.mapM (fieldValue ⟨q, request⟩ b.resource g) =
      records'.mapM (fieldValue ⟨q, request⟩ b.resource g) :=
    Except.mapM_same (h.imp fun _ _ h => fieldValue_same hides reached.known gettable h)
  unfold renderColumn
  rw [← values]
  refine Run.Agrees.after fun values hvalues => ?_
  change Run.Agrees Eq (if !isDeep ⟨q, request⟩ scope g b.level then _ else _)
    (if !isDeep ⟨q, request⟩ scope g b.level then _ else _)
  cases isDeep ⟨q, request⟩ scope g b.level with
  | false => exact .ok rfl
  | true =>
    cases hlink : g.link? with
    | some link => exact renderRelated_agrees hides agree overlooks below reached gettable hlink h hvalues
    | none =>
      cases hfield : (q.field.isSome && b.level.isEmpty) with
      | true => exact .ok rfl
      | false => exact .fail _

/-- A batch becomes the same rows on both stores. -/
theorem render_agrees (fuel : Nat) :
    e.RendersAlike q request collection path (e.render ⟨q, request⟩ fuel)
      ((e.on store).render ⟨q, request⟩ fuel) := by
  -- on the levels below: a level hands corresponding targets to the next one
  induction fuel with
  | zero => exact fun _ _ _ _ _ => .fail _
  | succ fuel ih =>
    intro b records' reached selected h
    rw [render, render]
    refine Run.Agrees.bind (R := Eq) (.ok rfl) fun _ _ _ => Run.Agrees.after fun scope _ => ?_
    have columns := Run.Agrees.each fun g hg =>
      renderColumn_agrees hides agree overlooks ih reached (selected g hg) h scope
    refine Run.Agrees.bind columns fun columns columns' hcolumns => .ok ?_
    rw [hcolumns]
    dsimp only
    rw [h.length_eq]

/-! Reads -/

/-- What a plan reads of records, where they are those of the collection. -/
structure PlanAgrees (e : Engine) (collection path : String) (s : Resource) (p : Plan) : Prop where
  matched : ∀ a b, e.Counterparts collection path s a b →
    Store.isMatch p.fetch.predicate a = Store.isMatch p.fetch.predicate b
  sorted : ∀ key ∈ p.fetch.sort, ∀ a b, e.Counterparts collection path s a b →
    a.read key.path = b.read key.path
  continued : e.ContinuesAlike s (e.Counterparts collection path s) p.window

omit agree in
theorem plan_agrees (found : e.findResource q = .ok s)
    {endpoint : Endpoint} {action source : String} {via : Option Field} {access : Access} {p : Plan}
    (granted : can s action ⟨q, request⟩ via = .ok access)
    (planned : e.plan ⟨q, request⟩ s endpoint access source = .ok p) :
    p.fetch.source = source ∧ e.PlanAgrees collection path s p := by
  have reached : e.Reaches q s Level.root := .root found
  obtain ⟨scope, prepared, keyset, made⟩ := planned_of_plan planned
  refine ⟨made.source, fun a b h => ?_, ?_, fun after hafter name hname held hheld a b h => ?_⟩
  · rw [made.predicate]
    refine Store.isMatch_conjoin_same fun predicate hmem => h.same fun stored => ?_
    rcases List.mem_append.mp hmem with hmem | hid
    · rcases List.mem_append.mp hmem with hlevel | hcursor
      · exact unread_prepareAll hides reached.known stored granted made.governed
          (overlooks.levels s _ reached stored) made.settled predicate hlevel
      · exact (overlooks.cursor s found stored).predicate scope p.window p.many keyset made.governed
          made.window made.continued predicate hcursor
    · obtain ⟨id, -, rfl⟩ := Option.map_eq_some_iff.mp (Option.mem_toList.mp hid)
      exact unread_idPredicate (hides.ids s reached.known stored).referred id
  · exact read_prepareSort made.governed (overlooks.levels s _ reached) made.sorted
  · exact h.same fun stored => (overlooks.cursor s found stored).values scope p.window after made.governed
      made.window hafter name hname held hheld

/-- Fields that are open, the same of corresponding records. -/
structure LoadedAlike (e : Engine) (collection path : String) (o : Opening) (l l' : Loaded) : Prop where
  among : l.fields ⊆ o.fields
  fields : l.fields = l'.fields
  records : List.Forall₂ (Option.Rel (e.Counterparts collection path o.resource)) l.records l'.records
  list : l.list? = l'.list?

theorem load_agrees {endpoint : Endpoint} {o : Opening}
    (opened : e.opening ⟨q, request⟩ endpoint = .ok o) (below : Option String) :
    Run.Agrees (e.LoadedAlike collection path o) (e.load ⟨q, request⟩ endpoint below o)
      ((e.on store).load ⟨q, request⟩ endpoint below o) := by
  obtain ⟨found, granted, -, -⟩ := opening_eq_ok.mp opened
  unfold load
  split
  · rename_i source stored
    refine Run.Agrees.after fun p planned => ?_
    obtain ⟨hfetch, reads⟩ := plan_agrees hides overlooks found granted planned
    have fetched := Store.answer_agrees (Store.fetch_agrees p.fetch
      (collection_agrees agree (hfetch ▸ stored)) reads.matched reads.sorted)
    refine Run.Agrees.bind fetched fun fetched fetched' hfetched => ?_
    unfold showing
    split
    · refine Except.Agrees.map (turnPage_agrees below reads.continued hfetched.1 hfetched.2) ?_
      rintro ⟨records, page⟩ ⟨records', _⟩ ⟨hrecords, rfl⟩
      exact ⟨List.Subset.refl _, rfl, List.rel_map (fun _ _ h => .some h) hrecords, rfl⟩
    · refine Except.Agrees.map (theRecord_agrees hfetched.1) fun record record' hrecord => ?_
      exact ⟨List.Subset.refl _, rfl, .cons (.some hrecord) .nil, rfl⟩
  · split
    · exact .ok ⟨List.filter_sublist.subset, rfl, .cons .none .nil, rfl⟩
    · exact .fail _

/-- A read of a resource, a record or a field gives the same on both stores. -/
theorem getResource_agrees (endpoint : Endpoint) (below : Option String) :
    Run.Agrees Eq (e.getResource ⟨q, request⟩ endpoint below)
      ((e.on store).getResource ⟨q, request⟩ endpoint below) := by
  rw [getResource_eq, getResource_eq]
  refine Run.Agrees.after fun o opened => ?_
  obtain ⟨found, -, -, taken⟩ := opening_eq_ok.mp opened
  refine Run.Agrees.bind (load_agrees hides agree overlooks opened below) fun l l' alike => ?_
  obtain ⟨among, hfields, hrecords, hlist⟩ := alike
  have rendered := render_agrees hides agree overlooks (e.levelBound q)
    ⟨none, o.resource, l.fields, l.records, Level.root⟩ l'.records (.root found)
    (fun g hg => gettable_of_takeFields taken (among hg)) hrecords
  rw [← hfields]
  refine Run.Agrees.bind rendered fun rows rows' hrows => .ok ?_
  rw [Loaded.answer, Loaded.answer, hrows, hlist]

omit overlooks

/-! Children -/

theorem getSpace_agrees (asks : AsksChildren q)
    (overlooks : ∀ below, Asks q below → e.Overlooks request collection path below) (owner : String)
    (below : Option String) :
    Run.Agrees Eq (e.getSpace ⟨q, request⟩ owner below) ((e.on store).getSpace ⟨q, request⟩ owner below) :=
  Run.Agrees.after fun _ _ => getChildren_agrees (fun _ _ sub below h =>
    getResource_agrees hides agree (overlooks sub (.child asks h (.self sub))) .resource below) below _

theorem getServer_agrees (asks : AsksChildren q) (unowned : q.space = none)
    (overlooks : ∀ below, Asks q below → e.Overlooks request collection path below) :
    Run.Agrees Eq (e.getServer ⟨q, request⟩) ((e.on store).getServer ⟨q, request⟩) := by
  refine getChildren_agrees (fun key name sub below h => ?_) none _
  obtain ⟨hrecord, hfield, -, hresource⟩ := childQuery_targets asks h
  have unnamed : sub.resource = none := by rw [hresource, unowned, Option.map_none]
  exact getSpace_agrees hides agree ⟨unnamed, hrecord, hfield⟩
    (fun query asked => overlooks query (.child asks h asked)) _ below

end stores

/-- What is stored for a field that the requester may not get does not show in any answer. On stores that
differ only there, a query is answered alike, as long as its filters, its sort keys and a cursor that
continues by values do not read it. -/
theorem execute_unseen (e : Engine) (hides : e.Hides request r f collection path) {store : Store}
    (agree : e.store.AgreeOff collection path store) (q : Query)
    (overlooks : ∀ below, Asks q below → e.Overlooks request collection path below) :
    ((e.on store).execute q request).outcome = (e.execute q request).outcome := by
  have gets : Run.Agrees Eq (e.get ⟨q, request⟩) ((e.on store).get ⟨q, request⟩) := by
    unfold get
    dsimp only
    cases target : q.endpoint with
    | server =>
      have asks : AsksChildren q := asksChildren_iff.mpr (.inl target)
      exact getServer_agrees hides agree asks (space_of_server target) overlooks
    | space => exact getSpace_agrees hides agree (asksChildren_iff.mpr (.inr target)) overlooks _ none
    | resource | record | field => exact getResource_agrees hides agree (overlooks q (.self q)) _ none
  unfold execute
  cases q.action.getD .get with
  | get => exact gets.outcome.symm
  | _ => rfl

end Engine

/-! Lots with a reserve that bidders do not get to know -/

namespace Auction

def config : ServerConfig where
  spaces := [("auction", { resources := [
    ("lot", {
      source := some "lots"
      fields := [
        ("next", { type := some (.str "@lot") }),
        ("reserve", { source := some (.str "terms.reserve"), can := some [("get", .bool false)] }),
        ("title", { source := some (.str "terms.title") })] })] })]

/-- A field of lots, as it is declared. -/
def field (name path : String) : Field where
  name := name
  owner := "auction.lot"
  type := .str "any"
  source := .path path
  isLazy := false
  can := none
  depends := none
  inverse := none
  default := none
  unique := false
  indexed := false
  nullable := false
  description := none

def next : Field := { field "next" "next" with type := .str "@lot" }

def reserve : Field := { field "reserve" "terms.reserve" with can := some [("get", .bool false)] }

def lot : Resource where
  name := "lot"
  space := "auction"
  source := some "lots"
  singleton := false
  idName := "id"
  fields := [
    { field "id" "id" with unique := true, indexed := true }, next, reserve, field "title" "terms.title"]
  can := none
  description := none

/-- Two lots with the given reserves. -/
def lots (first second : Value) : Store := [("lots", [
  [("id", .str "1"), ("next", .str "2"), ("terms", .obj [("reserve", first), ("title", .str "Clock")])],
  [("id", .str "2"), ("terms", .obj [("reserve", second), ("title", .str "Vase")])]])]

def auction (first second : Value) : Engine where
  server := .declared config
  store := lots first second
  settings := {}

variable {first second : Value}

theorem resources_auction : (auction first second).resources = [lot] := rfl

/-- What lots hold for any field but the reserve is stored elsewhere. -/
theorem unread_lot {f : Field} (hf : f ∈ lot.fields) (other : f ≠ reserve) :
    ∃ path, f.source = .path path ∧ Unread "terms.reserve" (Record.read · path) := by
  simp only [lot, List.mem_cons, List.not_mem_nil, or_false] at hf
  rcases hf with rfl | rfl | rfl | rfl
  · exact ⟨"id", rfl, unread_read (by decide +kernel) (by decide +kernel)⟩
  · exact ⟨"next", rfl, unread_read (by decide +kernel) (by decide +kernel)⟩
  · exact absurd rfl other
  · exact ⟨"terms.title", rfl, unread_read (by decide +kernel) (by decide +kernel)⟩

theorem eq_lot {s : Resource} (h : s ∈ (auction first second).resources) : s = lot := by
  simpa [resources_auction] using h

/-- The reserve of lots is hidden from all. -/
theorem hides (first second request : Value) :
    (auction first second).Hides request lot reserve "lots" "terms.reserve" where
  known := by simp [resources_auction]
  mem := by simp [lot]
  stored := rfl
  source := rfl
  denied q h := by cases (show canTakeField reserve "get" ⟨q, request⟩ {} = .ok false from rfl).symm.trans h
  fields s hs _ g hg := by
    obtain rfl := eq_lot hs
    by_cases hreserve : g = reserve
    · exact .inl ⟨rfl, hreserve⟩
    · obtain ⟨path, held, unread⟩ := unread_lot hg hreserve
      exact .inr fun q => Engine.unread_fieldValue held unread
  ids s hs _ := by
    obtain rfl := eq_lot hs
    exact ⟨unread_get? (by decide +kernel), unread_read (by decide +kernel) (by decide +kernel),
      Engine.unread_refer (by decide +kernel) (by decide +kernel) (by decide +kernel) (by decide +kernel)⟩
  relations s hs _ g hg _ p held := by
    obtain rfl := eq_lot hs
    by_cases hreserve : g = reserve
    · exact .inl ⟨rfl, hreserve⟩
    · obtain ⟨path, held', unread⟩ := unread_lot hg hreserve
      cases held.symm.trans held'
      exact .inr unread
  inverses s hs g hg t _ _ name inverse := by
    obtain rfl := eq_lot hs
    simp only [lot, List.mem_cons, List.not_mem_nil, or_false] at hg
    rcases hg with rfl | rfl | rfl | rfl <;> cases inverse
  computed s hs g hg computes := by
    obtain rfl := eq_lot hs
    simp only [lot, List.mem_cons, List.not_mem_nil, or_false] at hg
    rcases hg with rfl | rfl | rfl | rfl <;> exact absurd rfl (computes _ _ rfl)
  permissions s hs _ q action via access predicate prepared granted only := by
    obtain rfl := eq_lot hs
    obtain ⟨opened, -, granted⟩ := Except.monad_bind_eq_ok.mp granted
    cases opened <;> cases granted <;> cases only

/-- Stores of the same lots agree off their reserves. -/
theorem agreeOff (first second other another : Value) :
    (lots first second).AgreeOff "lots" "terms.reserve" (lots other another) := by
  refine .cons ⟨rfl, ?_⟩ .nil
  rw [if_pos rfl]
  exact .cons rfl (.cons rfl .nil)

/-- The clocks among the lots, the last title first, each with the next lot. -/
def catalogue : Query where
  space := some "auction"
  resource := some "lot"
  filter := some (.node "=" (.arr [.str "title", .str (Expr.quote "Clock")]))
  sort := some ["-title"]
  take := some [("next", .nested {}), ("*", .flag true)]

/-- No level of the catalogue is filtered or sorted by more than the title. -/
theorem governed_catalogue {level : Level} {scope : Scope} (h : catalogue.scope level = .ok scope) :
    (∀ p, scope.state?.bind Query.filter = some p → some p = catalogue.filter) ∧
      ∀ keys, scope.state?.bind Query.sort = some keys → keys = ["-title"] := by
  obtain ⟨located, hfollow, rfl⟩ := (Query.scope_eq_ok rfl).mp h
  cases hnames : level.names with
  | nil =>
    rw [hnames] at hfollow
    cases hfollow
    exact ⟨fun p hp => hp.symm, fun keys hkeys => (Option.some.inj hkeys).symm⟩
  | cons name names =>
    rw [hnames, Query.follow] at hfollow
    cases hentry : catalogue.entry? name with
    | none =>
      rw [hentry] at hfollow
      cases hfollow
    | some entry =>
      have mem : (name, entry) ∈ [("next", Take.nested {}), ("*", Take.flag true)] :=
        Entries.mem_of_get? hentry
      rw [hentry] at hfollow
      simp only [List.mem_cons, Prod.mk.injEq, List.not_mem_nil, or_false] at mem
      obtain ⟨-, rfl⟩ | ⟨-, rfl⟩ := mem
      all_goals
        cases names <;> cases hfollow
        constructor <;> intro _ h <;> cases h

/-- The catalogue is made without the reserves. -/
theorem overlooks (first second : Value) (below : Query) (asked : Engine.Asks catalogue below) :
    (auction first second).Overlooks .null "lots" "terms.reserve" below := by
  obtain rfl : below = catalogue := by
    cases asked with
    | self => rfl
    | child children => cases children.resource
  refine ⟨fun s level reached _ => ?_, fun s found _ => ?_⟩
  · obtain rfl := eq_lot reached.known
    refine ⟨fun scope predicate prepared governed filtered h => ?_, fun scope keys governed h => ?_⟩
    · cases (governed_catalogue governed).1 predicate filtered
      have storage : (auction first second).preparePredicate lot ⟨catalogue, .null⟩
          (.node "=" (.arr [.str "title", .str (Expr.quote "Clock")])) =
            .ok (idPredicate "terms.title" "Clock") := rfl
      cases storage.symm.trans h
      exact Engine.unread_idPredicate (Engine.unread_refer (by decide +kernel) (by decide +kernel)
        (by decide +kernel) (by decide +kernel)) "Clock"
    · cases hsort : scope.state?.bind Query.sort with
      | none =>
        rw [hsort] at h
        cases h
        exact nofun
      | some names =>
        obtain rfl := (governed_catalogue governed).2 names hsort
        have storage : (auction first second).prepareSort lot (some ["-title"]) =
            .ok [⟨"terms.title", true⟩] := rfl
        rw [hsort] at h
        cases storage.symm.trans h
        have unread : Unread "terms.reserve" (Record.read · "terms.title") :=
          unread_read (by decide +kernel) (by decide +kernel)
        simpa using unread
  · -- there is no page, so the cursor that the window has is none
    refine ⟨fun scope window many predicates governed hwindow h => ?_,
      fun scope window after governed hwindow h => ?_⟩
    · cases governed
      cases hwindow
      cases many <;> cases h <;> exact nofun
    · cases governed
      cases hwindow
      cases h

/-- The lots under a state. -/
def lotsWith (state : Query) : Query := { state with space := some "auction", resource := some "lot" }

/-- Queries that read the reserve: in a filter, in a sort key and in a cursor. -/
def asking : List Query := [
  lotsWith { filter := some (.node "=" (.arr [.str "reserve", .nat 5])) },
  lotsWith { sort := some ["-reserve"] },
  lotsWith { page := some { after := some (Cursor.keyset [("reserve", .nat 5)]).encode } }]

end Auction

/-- The catalogue of lots is the same whatever their reserves are. -/
theorem Engine.execute_unseen_catalogue :
    let e := Auction.auction (.nat 5) (.nat 9)
    let other := Auction.lots (.nat 8) (.str "none")
    ∃ response, (e.execute Auction.catalogue .null).outcome = .ok response ∧
      Archive.keys response = [["id", "next", "title"]] ∧
      ((e.on other).execute Auction.catalogue .null).outcome = .ok response := by
  intro e other
  have shows : (e.execute Auction.catalogue .null).outcome.toOption.map Archive.keys =
      some [["id", "next", "title"]] := by decide +kernel
  obtain ⟨response, h, keys⟩ := Option.map_eq_some_iff.mp shows
  have answered := Except.toOption_eq_some.mp h
  have agree : e.store.AgreeOff "lots" "terms.reserve" other := Auction.agreeOff _ _ _ _
  have same := Engine.execute_unseen e (Auction.hides _ _ _) agree Auction.catalogue (Auction.overlooks _ _)
  exact ⟨response, answered, keys, same.trans answered⟩

/-- Whether lots have their reserves shows where these are filtered by, sorted by, or continued behind. -/
theorem Engine.execute_unseen_asking :
    let e := Auction.auction (.nat 5) (.nat 9)
    let other := Auction.lots .null .null
    e.Hides .null Auction.lot Auction.reserve "lots" "terms.reserve" ∧
      e.store.AgreeOff "lots" "terms.reserve" other ∧
      ∀ q ∈ Auction.asking, ((e.on other).execute q .null).outcome ≠ (e.execute q .null).outcome := by
  intro e other
  refine ⟨Auction.hides _ _ _, Auction.agreeOff _ _ _ _, fun q hq same => ?_⟩
  have texts : ∀ q ∈ Auction.asking,
      ((e.on other).execute q .null).outcome.toOption.map (fun response => response.data.text) ≠
        (e.execute q .null).outcome.toOption.map (fun response => response.data.text) := by decide +kernel
  exact texts q hq (by rw [same])

end RecordGraph
