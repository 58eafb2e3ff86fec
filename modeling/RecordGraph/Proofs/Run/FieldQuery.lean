import RecordGraph.Proofs.Run.Depth
import RecordGraph.Proofs.Run.Options
import RecordGraph.Proofs.Run.Paging
import RecordGraph.Proofs.Run.Single

/-!
Fields of records. What a query for a field answers is what the query for its record has under the name
of the field, however deeply relations are followed below it.
-/
namespace RecordGraph

namespace Query

/-- The query for a record, with what to do with one field. -/
def taking (q : Query) (name : String) (entry : Take) : Query :=
  { q.rootFeatures with field := none, take := some [(name, entry)] }

/-- The query for a field, its records shaped by a state. -/
def targeting (q : Query) (name : String) (n : Query) : Query :=
  { n.leveledFeatures with
    space := q.space, resource := q.resource, record := q.record, field := some name,
    action := q.action, inspect := q.inspect }

/-- No filter of a state or of those nested in it reads the query. -/
def FiltersBlind (n : Query) (request : Value) : Prop :=
  ∀ names state, n.follow names = some (.state state) → ∀ predicate, state.filter = some predicate →
    Indifferent request fun ctx => resolve ctx.scope predicate

end Query

/-- Nothing in the graph reads the query: no rule or condition, no source of a field, and no predicate
that the rules come to. -/
structure Engine.QueryFree (e : Engine) (request : Value) : Prop where
  resources : ∀ r ∈ e.resources, r.Blind e.settings request
  prefetch : ∀ r ∈ e.resources, ∀ f ∈ r.fields, ∀ rule ∈ f.can.getD [],
    Indifferent request fun ctx => resolve ctx.scope rule.2
  permissions : ∀ r ∈ e.resources, ∀ action q access, can r action ⟨q, request⟩ none = .ok access →
    ∀ predicate, access.predicate? = some predicate →
      Indifferent request fun ctx => resolve ctx.scope predicate

/-! Scopes -/

/-- A scope with nothing but what applies below the root. -/
def Scope.leveled : Scope → Scope
  | .ids => .ids
  | .state q => .state q.leveledFeatures

section leveled
variable (scope : Scope)

theorem Scope.leveled_filter :
    scope.leveled.state?.bind Query.filter = scope.state?.bind Query.filter := by
  cases scope <;> rfl

theorem Scope.leveled_sort :
    scope.leveled.state?.bind Query.sort = scope.state?.bind Query.sort := by
  cases scope <;> rfl

theorem Scope.leveled_pageSize (default : UInt64) :
    scope.leveled.pageSize default = scope.pageSize default := by
  cases scope <;> rfl

theorem Scope.leveled_taken (idName : String) : scope.leveled.taken idName = scope.taken idName := by
  cases scope <;> rfl

end leveled

section scopes
variable {q n : Query} {name : String}

theorem Query.follow_targeting {names : List String} {located : Located}
    (h : n.follow names = some located) : ∃ located', (q.targeting name n).follow names = some located' ∧
      (Scope.ofLocated located').leveled = (Scope.ofLocated located).leveled := by
  cases names with
  | nil =>
    cases h
    exact ⟨_, rfl, rfl⟩
  | cons first names => exact ⟨located, h, rfl⟩

/-- Below the field, a record query is governed by what the nested state has. -/
theorem Query.scope_taking (named : name ≠ "") {below : Level} {scope : Scope}
    (h : (q.taking name (.nested n)).scope (name :: below) = .ok scope) :
    ∃ located, n.follow (Level.names below) = some located ∧ scope = Scope.ofLocated located := by
  obtain ⟨located, hfollow, rfl⟩ := (Query.scope_eq_ok rfl).mp h
  have hnames : Level.names (name :: below) = name :: Level.names below := by simp [Level.names, named]
  have hentry : Query.entry? (q.taking name (.nested n)) name = some (.nested n) := by
    simp [Query.entry?, Query.taking]
  rw [hnames, Query.follow, hentry] at hfollow
  exact ⟨located, hfollow, rfl⟩

/-- Below its root, a query for a field is governed as the query for its record is. -/
theorem Query.scope_targeting (named : name ≠ "") {below : Level} {scope : Scope}
    (h : (q.taking name (.nested n)).scope (name :: below) = .ok scope) :
    (q.targeting name n).scope (name :: below) = .ok scope.leveled := by
  obtain ⟨located, hfollow, rfl⟩ := Query.scope_taking named h
  obtain ⟨located', hfollow', hsame⟩ : ∃ located',
      (q.targeting name n).follow (Level.names below) = some located' ∧
        (Scope.ofLocated located').leveled = (Scope.ofLocated located).leveled :=
    Query.follow_targeting hfollow
  rw [← hsame, Query.scope]
  simp only [Query.targeting, Option.isNone_some, Bool.false_eq_true, if_false]
  change ((q.targeting name n).locate below).map _ = _
  rw [Query.locate, Query.at?, hfollow']
  cases located' <;> rfl

theorem Query.filter_taking {request : Value} (named : name ≠ "") (filters : n.FiltersBlind request)
    {below : Level} {scope : Scope} (h : (q.taking name (.nested n)).scope (name :: below) = .ok scope)
    {predicate : Value} (hp : scope.state?.bind Query.filter = some predicate) :
    Indifferent request fun ctx => resolve ctx.scope predicate := by
  obtain ⟨located, hfollow, rfl⟩ := Query.scope_taking named h
  cases located with
  | flag taken => cases hp
  | state state => exact filters _ state hfollow predicate hp

end scopes

section blind
variable {e : Engine} {request : Value} {r : Resource} {f : Field}

theorem indifferent_prefetchGranted (h : ∀ rule ∈ f.can.getD [],
    Indifferent request fun ctx => resolve ctx.scope rule.2) :
    Indifferent request fun ctx => prefetchGranted r ctx (some f) := by
  intro q q'
  dsimp only
  unfold prefetchGranted
  rw [Option.bind_some]
  cases hcan : f.can with
  | none => rfl
  | some table =>
    rw [hcan] at h
    rw [Option.bind_some]
    cases hrule : table.get? "prefetch" with
    | none => rfl
    | some rule =>
      have hresolve : resolve (Context.scope ⟨q, request⟩) rule =
          resolve (Context.scope ⟨q', request⟩) rule := h _ (Entries.mem_of_get? hrule) q q'
      dsimp only
      rw [hresolve]

namespace Engine

theorem QueryFree.can (blind : e.QueryFree request) {r' : Resource} (hr : r ∈ e.resources)
    (hr' : r' ∈ e.resources) (hf : f ∈ r'.fields) (action : String) :
    Indifferent request fun ctx => can r action ctx (some f) := by
  intro q q'
  have hgranted : prefetchGranted r ⟨q, request⟩ (some f) = prefetchGranted r ⟨q', request⟩ (some f) :=
    indifferent_prefetchGranted (blind.prefetch r' hr' f hf) q q'
  have hruled : ruledAccess r (Text.lower action) ⟨q, request⟩ =
      ruledAccess r (Text.lower action) ⟨q', request⟩ :=
    indifferent_can (blind.resources r hr).rulesBlind action q q'
  dsimp only
  unfold RecordGraph.can
  rw [hgranted, hruled]

/-- A predicate of an access that a relation gives is one of the rules. -/
theorem QueryFree.permission (blind : e.QueryFree request) (hr : r ∈ e.resources) {action : String}
    {q : Query} {via : Option Field} {access : Access}
    (h : RecordGraph.can r action ⟨q, request⟩ via = .ok access) {predicate : Value}
    (hp : access.predicate? = some predicate) :
    Indifferent request fun ctx => resolve ctx.scope predicate := by
  obtain ⟨granted, -, h⟩ := Except.monad_bind_eq_ok.mp h
  cases granted with
  | true =>
    cases h
    cases hp
  | false => exact blind.permissions r hr action q access h predicate hp

theorem QueryFree.permitted (blind : e.QueryFree request) (hr : r ∈ e.resources)
    {take : Option (Entries Take)} {idName action : String} (q q' : Query) :
    permitted take idName action ⟨q, request⟩ e.settings r.fields =
      RecordGraph.permitted take idName action ⟨q', request⟩ e.settings r.fields :=
  permitted_congr fun _ hf =>
    indifferent_canTakeField (blind.resources r hr).rulesBlind hf action q q'

theorem QueryFree.valued (blind : e.QueryFree request) (hr : r ∈ e.resources) (hf : f ∈ r.fields)
    {records : List (Option Record)} {column : List Value} (q q' : Query)
    (h : (∀ record ∈ records, ∃ v, fieldValue ⟨q, request⟩ r f record = .ok v) ∧
      column = records.map (e.shown ⟨q, request⟩ r f)) :
    (∀ record ∈ records, ∃ v, fieldValue ⟨q', request⟩ r f record = .ok v) ∧
      column = records.map (e.shown ⟨q', request⟩ r f) := by
  have same (record : Option Record) : fieldValue ⟨q, request⟩ r f record =
      fieldValue ⟨q', request⟩ r f record :=
    indifferent_fieldValue ((blind.resources r hr).sources f hf) record q q'
  have shown : e.shown ⟨q, request⟩ r f = e.shown ⟨q', request⟩ r f := by
    funext record
    rw [Engine.shown, Engine.shown, same]
  simpa only [same, shown] using h

theorem QueryFree.fieldValues (blind : e.QueryFree request) (hr : r ∈ e.resources) (hf : f ∈ r.fields)
    (records : List (Option Record)) (q q' : Query) :
    records.mapM (fieldValue ⟨q, request⟩ r f) = records.mapM (fieldValue ⟨q', request⟩ r f) :=
  Except.mapM_congr fun record _ =>
    indifferent_fieldValue ((blind.resources r hr).sources f hf) record q q'

end Engine
end blind

/-! Below the field -/

namespace Engine
variable {e : Engine} {request : Value} {q n : Query} {name : String} (blind : e.QueryFree request)
  (named : name ≠ "") (filters : n.FiltersBlind request)

include blind named filters

/-- A relation below the field has the target that it has below the record. -/
theorem settled_targeting {r : Resource} {f : Field} {link : String} {level below : Level} {t : Target}
    {access : Access} {scope : Scope} (hr : r ∈ e.resources) (hf : f ∈ r.fields)
    (hlevel : level.enter f.name = name :: below)
    (h : e.Settled ⟨q.taking name (.nested n), request⟩ r f link level t access scope) :
    e.Settled ⟨q.targeting name n, request⟩ r f link level t access scope.leveled := by
  have ht := mem_resources_of_resolveLink h.resolved
  have entered := h.entered.trans hlevel
  have governed := h.governed
  rw [entered] at governed
  have inner := Query.scope_targeting named governed
  have taken := h.taken
  rw [takeFields_scope rfl h.governed] at taken
  refine {
    resolved := h.resolved
    entered := h.entered
    granted := (blind.can ht hr hf _ _ _).trans h.granted
    allowed := h.allowed
    taken := ?_
    governed := by rw [entered, inner]
    size := by rw [h.size, Scope.leveled_pageSize]
    prepared := ?_
    sorted := by rw [Scope.leveled_sort, h.sorted]
    stored := h.stored }
  · rw [takeFields_scope (by simp [entered]) (by rw [entered, inner]), Scope.leveled_taken, ← taken]
    exact blind.permitted ht _ _
  · rw [Scope.leveled_filter, ← h.prepared]
    exact prepareAll_congr (fun p hp => blind.permission ht h.granted hp)
      (fun p hp => Query.filter_taking named filters governed hp)

/-- A relation below the field is rendered as it is below the record, if its targets are. -/
theorem renderRelated_targeting {r : Resource} {f : Field} {link : String} {level below : Level}
    {records : List (Option Record)} {values column : List Value} {render render' : Renderer}
    (hr : r ∈ e.resources) (hf : f ∈ r.fields) (hlevel : level.enter f.name = name :: below)
    (rendered : ∀ t access scope,
      e.Settled ⟨q.taking name (.nested n), request⟩ r f link level t access scope →
        ∀ groups rows, (render (t.child f groups)).outcome = .ok rows →
          (render' (t.child f groups)).outcome = .ok rows)
    (h : (e.renderRelated ⟨q.taking name (.nested n), request⟩ render r f link records values
      level).outcome = .ok column) :
    (e.renderRelated ⟨q.targeting name n, request⟩ render' r f link records values level).outcome =
      .ok column := by
  obtain ⟨t, groups, rows, ht, hgroups, hrows, hcolumn⟩ := outcome_renderRelated.mp h
  obtain ⟨access, scope, settled⟩ := target_eq_ok.mp ht
  exact outcome_renderRelated.mpr ⟨t, groups, rows,
    target_eq_ok.mpr ⟨access, scope.leveled, settled_targeting blind named filters hr hf hlevel settled⟩,
    hgroups, rendered t access scope settled groups rows hrows, hcolumn⟩

omit blind named filters in
theorem isDeep_targeting {level below : Level} (hlevel : level = name :: below) {scope : Scope}
    {f : Field} : isDeep ⟨q.targeting name n, request⟩ scope.leveled f level =
      isDeep ⟨q.taking name (.nested n), request⟩ scope f level := by
  subst hlevel
  cases scope <;> rfl

/-- What is rendered below the record is rendered below the field, within the levels that the relations
take to come to an end. -/
theorem render_targeting {fuel bound : Nat} {b : Batch} {below : Level} {scope : Scope}
    {rows : List Value} (hlevel : b.level = name :: below) (hr : b.resource ∈ e.resources)
    (hscope : (q.taking name (.nested n)).scope b.level = .ok scope)
    (taken : takeFields b.resource "get" b.level ⟨q.taking name (.nested n), request⟩ e.settings =
      .ok b.fields)
    (settles : e.Settles ⟨q.taking name (.nested n), request⟩ bound (b.resource, scope))
    (h : (e.render ⟨q.taking name (.nested n), request⟩ fuel b).outcome = .ok rows) :
    (e.render ⟨q.targeting name n, request⟩ bound b).outcome = .ok rows := by
  induction bound generalizing fuel b below scope rows with
  | zero => exact settles.elim
  | succ bound ih =>
    cases fuel with
    | zero => cases h
    | succ fuel =>
      obtain ⟨scope', columns, hscope', hcolumns, rfl⟩ := outcome_render.mp h
      cases hscope.symm.trans hscope'
      have inner : (q.targeting name n).scope b.level = .ok scope.leveled := by
        rw [hlevel] at hscope ⊢
        exact Query.scope_targeting named hscope
      refine outcome_render.mpr ⟨scope.leveled, columns, inner, ?_, by simp [hlevel, Query.taking]⟩
      refine ((List.forall₂_and_left _ _).mpr ⟨fun f hf => hf, hcolumns⟩).imp ?_
      rintro f column ⟨mem, hcolumn⟩
      have hf : f ∈ b.resource.fields := by
        rw [takeFields_scope rfl hscope] at taken
        exact (permitted_sublist taken).subset mem
      cases deep : isDeep ⟨q.taking name (.nested n), request⟩ scope f b.level with
      | false =>
        rw [renderColumn_flat deep] at hcolumn
        rw [renderColumn_flat (by rw [isDeep_targeting hlevel, deep])]
        exact blind.valued hr hf _ _ hcolumn
      | true =>
        obtain ⟨link, hlink⟩ := link?_of_renderColumn deep rfl hcolumn
        obtain ⟨values, hvalues, hcolumn⟩ := (outcome_renderColumn_deep deep hlink).mp hcolumn
        rw [outcome_renderColumn_deep (by rw [isDeep_targeting hlevel, deep]) hlink]
        refine ⟨values, (blind.fieldValues hr hf _ _ _).trans hvalues, ?_⟩
        have entered : b.level.enter f.name = name :: (below ++ Level.ofText f.name) := by
          rw [hlevel, Level.enter, List.cons_append]
        refine renderRelated_targeting blind named filters hr hf entered ?_ hcolumn
        intro t access inner settled groups rows hrows
        exact ih (settled.entered.trans entered) (mem_resources_of_resolveLink settled.resolved)
          settled.governed settled.taken
          (settles _ (enters_of_settled rfl hscope taken mem deep hlink settled)) hrows

end Engine

/-! A field and its record -/

namespace Engine
variable {e : Engine} {request : Value} {q n : Query} {r : Resource} {source name : String} {f : Field}
  {entry : Take}

/-- A field is read as its record is. -/
theorem plan_targeting (blind : e.QueryFree request) (hr : r ∈ e.resources) {action : String}
    {access : Access} {q' : Query} (allowed : can r action ⟨q', request⟩ none = .ok access) :
    e.plan ⟨q.targeting name n, request⟩ r .field access source =
      e.plan ⟨q.taking name entry, request⟩ r .record access source := by
  have prepared : e.prepareAll r ⟨q.targeting name n, request⟩ access none =
      e.prepareAll r ⟨q.taking name entry, request⟩ access none :=
    prepareAll_congr (blind.permissions r hr action q' access allowed) (by simp)
  unfold plan rootPredicates
  change (e.prepareAll r ⟨q.targeting name n, request⟩ access none >>= _) >>= _ = _
  rw [prepared]
  rfl

/-- A query for a record of a resource whose fields differ in their names, and a field of it that may be
taken. Access to records and to fields is the same. -/
structure HasField (e : Engine) (q : Query) (request : Value) (r : Resource) (source : String)
    (f : Field) : Prop where
  reads : q.action.getD .get = .get
  found : e.findResource q = .ok r
  record : q.record.isSome
  stored : r.source = some source
  /-- As they do where a resource was built. -/
  distinct : (r.fields.map Field.name).Nodup
  mem : f ∈ r.fields
  undotted : '.' ∉ f.name.toList
  named : f.name ≠ ""
  allowed : canTakeField f "get" ⟨q, request⟩ e.settings = .ok true
  same : can r "get.record" ⟨q, request⟩ none = can r "get.field" ⟨q, request⟩ none

theorem length_resources : (e.server.spaces.flatMap fun (_, s) => s.resources).length =
    e.resources.length := by
  simp [resources, List.length_flatMap]

/-- The relations below a field come to an end within the levels that its query may enter. -/
theorem levelBound_targeting : ∃ bound, e.levelBound (q.targeting name n) = bound + 1 ∧
    e.resources.length * (takeDepth n + 1) + 1 ≤ bound := by
  have depth : takeDepth (q.targeting name n) = takeDepth n := by
    obtain ⟨_, _, _, _, _, _, take, _, _, _, _⟩ := n
    cases take <;> simp [Query.targeting, Query.leveledFeatures, takeDepth]
  have hmul : (takeDepth n + 2) * (e.resources.length + 1) =
      e.resources.length * (takeDepth n + 1) + (takeDepth n + 1) + (e.resources.length + 1) := by
    rw [Nat.succ_mul, Nat.mul_succ, Nat.mul_comm]
  refine ⟨(takeDepth n + 2) * (e.resources.length + 1) - 1, ?_, by omega⟩
  rw [levelBound, depth, length_resources]
  omega

section reading
variable (has : e.HasField q request r source f) (blind : e.QueryFree request)
include has

theorem HasField.field?_eq : r.field? f.name = some f :=
  (Resource.field?_eq_some has.distinct).mpr ⟨has.mem, rfl⟩

theorem HasField.enter : Level.root.enter f.name = [f.name] := by
  rw [Level.root, Level.enter, List.nil_append, Level.ofText, Text.pieces_of_not_mem has.undotted]

theorem HasField.execute_taking : e.execute (q.taking f.name entry) request =
    e.getResource ⟨q.taking f.name entry, request⟩ .record none := by
  have endpoint : (q.taking f.name entry).endpoint = .record := by
    simp [Query.endpoint, Query.taking, Query.rootFeatures, has.record]
  have reads : (q.taking f.name entry).action.getD .get = .get := has.reads
  rw [execute_reads request reads (.inr (.inl endpoint)), endpoint]

theorem HasField.execute_targeting : e.execute (q.targeting f.name n) request =
    e.getResource ⟨q.targeting f.name n, request⟩ .field none := by
  have endpoint : (q.targeting f.name n).endpoint = .field := rfl
  have reads : (q.targeting f.name n).action.getD .get = .get := has.reads
  rw [execute_reads request reads (.inr (.inr endpoint)), endpoint]

include blind

/-- The query for a field reads the record that the query for the record does, and shows the field. -/
theorem HasField.readsOne (taken : entry.isTaken) {fields : List Field} {record : Record}
    (h : e.ReadsOne ⟨q.taking f.name entry, request⟩ r .record source fields record) :
    f ∈ fields ∧ e.ReadsOne ⟨q.targeting f.name n, request⟩ r .field source [f] record := by
  have hr := mem_resources_of_findResource has.found
  have rules := (blind.resources r hr).rulesBlind
  have anywhere (q' : Query) : canTakeField f "get" ⟨q', request⟩ e.settings = .ok true :=
    (indifferent_canTakeField rules has.mem "get" q' q).trans has.allowed
  obtain ⟨allowed, opened, hfields, planned, stored, first⟩ := h
  rename_i access p fetched
  constructor
  · rw [takeFields_list "get" e.settings rfl] at hfields
    refine mem_permitted hfields has.mem ?_ (anywhere _)
    simp [shouldTake, Query.taking, Entries.get?, taken]
  · have accessed : can r "get.field" ⟨q.targeting f.name n, request⟩ none = .ok access :=
      (indifferent_can rules "get.field" _ q).trans
        (has.same.symm.trans ((indifferent_can rules "get.record" q _).trans allowed))
    exact .intro accessed opened (takeFields_target rfl has.field?_eq (anywhere _))
      ((plan_targeting blind hr accessed).trans planned) stored first

/-- Where its relation is not followed, a field shows what it shows on its record. -/
theorem HasField.column_flat (plain : n.take = none) {render render' : Renderer} {scope : Scope}
    {fields fields' : List Field} {records : List (Option Record)} {column : List Value}
    (h : (e.renderColumn ⟨q.taking f.name (.flag true), request⟩ render
      (.state (q.taking f.name (.flag true))) ⟨none, r, fields, records, Level.root⟩ f).outcome =
        .ok column) :
    (e.renderColumn ⟨q.targeting f.name n, request⟩ render' scope
      ⟨none, r, fields', records, Level.root⟩ f).outcome = .ok column := by
  have plainly : isDeep ⟨q.taking f.name (.flag true), request⟩
      (.state (q.taking f.name (.flag true))) f Level.root = false := by
    simp [isDeep, Query.taking, Scope.take?, Scope.state?]
  have same : isDeep ⟨q.targeting f.name n, request⟩ scope f Level.root = false := by
    simp [isDeep, Query.targeting, Query.leveledFeatures, Level.root, plain]
  rw [renderColumn_flat plainly] at h
  rw [renderColumn_flat same]
  exact blind.valued (mem_resources_of_findResource has.found) has.mem _ _ h

/-- A relation shows the targets that it shows on its record. -/
theorem HasField.column_nested (nested : n.take.isSome) (filters : n.FiltersBlind request)
    {fuel bound : Nat} (enough : e.resources.length * (takeDepth n + 1) + 1 ≤ bound) {scope : Scope}
    {fields fields' : List Field} {records : List (Option Record)} {column : List Value}
    (h : (e.renderColumn ⟨q.taking f.name (.nested n), request⟩
      (e.render ⟨q.taking f.name (.nested n), request⟩ fuel) (.state (q.taking f.name (.nested n)))
        ⟨none, r, fields, records, Level.root⟩ f).outcome = .ok column) :
    (e.renderColumn ⟨q.targeting f.name n, request⟩ (e.render ⟨q.targeting f.name n, request⟩ bound)
      scope ⟨none, r, fields', records, Level.root⟩ f).outcome = .ok column := by
  have hr := mem_resources_of_findResource has.found
  have deep : isDeep ⟨q.taking f.name (.nested n), request⟩
      (.state (q.taking f.name (.nested n))) f Level.root := by
    simp [isDeep, Query.taking, Scope.take?, Scope.state?]
  have same : isDeep ⟨q.targeting f.name n, request⟩ scope f Level.root := by
    simpa [isDeep, Query.targeting, Query.leveledFeatures, Level.root] using nested
  obtain ⟨link, hlink⟩ := link?_of_renderColumn deep rfl h
  obtain ⟨values, hvalues, h⟩ := (outcome_renderColumn_deep deep hlink).mp h
  refine (outcome_renderColumn_deep same hlink).mpr
    ⟨values, (blind.fieldValues hr has.mem _ _ _).trans hvalues, ?_⟩
  refine renderRelated_targeting blind has.named filters hr has.mem has.enter ?_ h
  intro t access inner settled groups rows hrows
  have entered := settled.entered.trans has.enter
  have shallow : inner.depth ≤ takeDepth n := by
    obtain ⟨located, hfollow, rfl⟩ := Query.scope_taking has.named (entered ▸ settled.governed)
    exact Query.depth_follow_le hfollow
  have settles := (settles_of_render rfl settled.governed settled.taken hrows).bounded
  refine render_targeting blind has.named filters entered (mem_resources_of_resolveLink settled.resolved)
    settled.governed settled.taken (settles.mono (Nat.le_trans ?_ enough)) hrows
  exact Nat.succ_le_succ (Nat.mul_le_mul_left _ (Nat.succ_le_succ shallow))

/-- What a field shows on its record is what its query answers. -/
theorem HasField.answer (taken : entry.isTaken)
    (columns : ∀ fields records column fuel bound,
      e.resources.length * (takeDepth n + 1) + 1 ≤ bound →
      (e.renderColumn ⟨q.taking f.name entry, request⟩ (e.render ⟨q.taking f.name entry, request⟩ fuel)
        (.state (q.taking f.name entry)) ⟨none, r, fields, records, Level.root⟩ f).outcome = .ok column →
      (e.renderColumn ⟨q.targeting f.name n, request⟩
        (e.render ⟨q.targeting f.name n, request⟩ bound) (.state (q.targeting f.name n).rootFeatures)
          ⟨none, r, [f], records, Level.root⟩ f).outcome = .ok column)
    {response : Response} (h : (e.execute (q.taking f.name entry) request).outcome = .ok response) :
    ∃ answer, (e.execute (q.targeting f.name n) request).outcome = .ok answer ∧
      response.data.get? f.name = some answer.data := by
  rw [has.execute_taking, getResource_one (by simp) has.found has.stored] at h
  obtain ⟨fields, record, rows, reads, hrows, rfl⟩ := h
  obtain ⟨mem, reads'⟩ := has.readsOne blind (n := n) taken reads
  obtain ⟨fuel, hfuel⟩ := e.levelBound_pos (q.taking f.name entry)
  rw [renderRoot, hfuel] at hrows
  obtain ⟨scope, shownColumns, hscope, hcolumns, rfl⟩ := outcome_render.mp hrows
  cases (scope_root_list rfl).symm.trans hscope
  have distinct := has.distinct.sublist ((reads.sublist rfl).map Field.name)
  obtain ⟨column, hcolumn, hget⟩ := get?_assemble distinct hcolumns mem
  obtain ⟨bound, hbound, enough⟩ : ∃ bound, e.levelBound (q.targeting f.name n) = bound + 1 ∧
      e.resources.length * (takeDepth n + 1) + 1 ≤ bound := levelBound_targeting
  have hfield := columns fields _ column fuel bound enough hcolumn
  rw [has.execute_targeting]
  refine ⟨⟨cell column 0, []⟩, ?_, hget⟩
  refine (getResource_one (by simp) has.found has.stored).mpr ⟨[f], record, [cell column 0], reads', ?_, rfl⟩
  rw [renderRoot, hbound]
  exact outcome_render.mpr ⟨_, [column], rfl, .cons hfield .nil, rfl⟩

end reading

/-- A query for a field answers what the query for its record has under the name of the field: with no
`take`, what is there when the field is merely taken, and else what is there when it is taken with the
nested state, however deeply relations are followed below it. -/
theorem execute_field (has : e.HasField q request r source f) (blind : e.QueryFree request) :
    (∀ n response, n.take = none →
      (e.execute (q.taking f.name (.flag true)) request).outcome = .ok response →
        ∃ answer, (e.execute (q.targeting f.name n) request).outcome = .ok answer ∧
          response.data.get? f.name = some answer.data) ∧
      ∀ n response, n.take.isSome → n.FiltersBlind request →
        (e.execute (q.taking f.name (.nested n)) request).outcome = .ok response →
          ∃ answer, (e.execute (q.targeting f.name n) request).outcome = .ok answer ∧
            response.data.get? f.name = some answer.data := by
  constructor
  · intro n response plain h
    refine has.answer blind rfl ?_ h
    exact fun fields records column fuel bound _ => has.column_flat blind plain
  · intro n response nested filters h
    refine has.answer blind rfl ?_ h
    exact fun fields records column fuel bound enough => has.column_nested blind nested filters enough

end Engine

/-! The sequel of a book -/

namespace Shelf

def first : Query where
  space := some "library"
  resource := some "book"
  record := some "1"

/-- The state under which a sequel of the title that is asked for shows its own sequel. -/
def onward : Query where
  take := some [("title", .flag true), ("sequel", .nested {})]
  filter := some wanted

theorem hasField_sequel : library.HasField first asked.request books "books" sequel where
  reads := rfl
  found := rfl
  record := rfl
  stored := rfl
  distinct := by decide
  mem := by simp [books]
  undotted := by decide
  named := by decide
  allowed := rfl
  same := by
    have covered : covers "get" (Text.lower "get.record") = covers "get" (Text.lower "get.field") := by
      decide +kernel
    rw [can_books, can_books, covered]

theorem queryFree_library : library.QueryFree asked.request := by
  have only : ∀ r ∈ library.resources, r = books := by
    simp [Engine.resources, library, books]
  constructor
  · intro r hr
    rw [only r hr]
    exact blind_paged.toBlind
  · intro r hr f hf rule hrule
    have closed : ∀ f ∈ books.fields, f.can = none := by simp [books, title, sequel]
    rw [only r hr] at hf
    rw [closed f hf] at hrule
    cases hrule
  · intro r hr action q access h predicate hp q' q''
    rw [only r hr] at h
    cases eq_wanted h hp
    exact (resolve_wanted q').2.trans (resolve_wanted q'').2.symm

theorem filtersBlind_onward : onward.FiltersBlind asked.request := by
  intro names state h predicate hp
  have below (name : String) (nested : Query) (h : onward.entry? name = some (.nested nested)) :
      nested = {} := by
    have entries := Entries.mem_of_get? h
    simp only [onward, Option.getD_some, List.mem_cons, Prod.mk.injEq, reduceCtorEq, and_false,
      false_or, Take.nested.injEq, List.not_mem_nil, or_false] at entries
    exact entries.2
  cases names with
  | nil =>
    cases h
    cases hp
    exact fun q q' => (resolve_wanted q).2.trans (resolve_wanted q').2.symm
  | cons name names =>
    rw [Query.follow] at h
    split at h
    · cases h
    · rename_i nested hnested
      cases below name nested hnested
      cases names with
      | nil =>
        cases h
        cases hp
      | cons => cases h
    · split at h <;> cases h

end Shelf

/-- The sequel of a book is what the book shows of it, as a reference and with the title and the sequel
of its own. -/
theorem Engine.execute_field_sequel :
    let n := Shelf.onward
    (∃ response answer,
      (Shelf.library.execute (Shelf.first.taking "sequel" (.flag true)) Shelf.asked.request).outcome =
          .ok response ∧
        (Shelf.library.execute (Shelf.first.targeting "sequel" {}) Shelf.asked.request).outcome =
          .ok answer ∧ response.data.get? "sequel" = some answer.data) ∧
      ∃ response answer,
        (Shelf.library.execute (Shelf.first.taking "sequel" (.nested n)) Shelf.asked.request).outcome =
            .ok response ∧
          (Shelf.library.execute (Shelf.first.targeting "sequel" n) Shelf.asked.request).outcome =
            .ok answer ∧ response.data.get? "sequel" = some answer.data := by
  intro n
  have plain : (Shelf.library.execute (Shelf.first.taking "sequel" (.flag true))
      Shelf.asked.request).outcome.toOption.isSome := by decide +kernel
  have nested : (Shelf.library.execute (Shelf.first.taking "sequel" (.nested n))
      Shelf.asked.request).outcome.toOption.isSome := by decide +kernel
  obtain ⟨response, plain⟩ := Option.isSome_iff_exists.mp plain
  obtain ⟨response', nested⟩ := Option.isSome_iff_exists.mp nested
  rw [Except.toOption_eq_some] at plain nested
  obtain ⟨flat, deep⟩ := execute_field Shelf.hasField_sequel Shelf.queryFree_library
  obtain ⟨answer, hanswer, same⟩ := flat {} response rfl plain
  obtain ⟨answer', hanswer', same'⟩ := deep n response' rfl Shelf.filtersBlind_onward nested
  exact ⟨⟨response, answer, plain, hanswer, same⟩, response', answer', nested, hanswer', same'⟩

end RecordGraph
