import RecordGraph.Proofs.Run.Cutting

/-!
Answers cut at a smaller page. What is rendered below the root of a read is cut, and so are the answers of
the children of servers and spaces, each at the level that leads to it.
-/
namespace RecordGraph

/-! Runs that carry over -/

namespace Run
variable {α β γ δ : Type}

/-- If a run ends well then so does another, with what is made of the result. -/
def Carries (make : α → β) (run : Run α) (other : Run β) : Prop :=
  ∀ a, run.outcome = .ok a → other.outcome = .ok (make a)

namespace Carries
variable {make : α → β} {make' : γ → δ}

theorem ok (make : α → β) (a : α) : Carries make (pure a) (pure (make a)) := by
  rintro _ ⟨⟩
  rfl

theorem bind {run : Run α} {other : Run β} {next : α → Run γ} {next' : β → Run δ}
    (h : Carries make run other)
    (step : ∀ a, run.outcome = .ok a → Carries make' (next a) (next' (make a))) :
    Carries make' (run >>= next) (other >>= next') := by
  intro c hc
  obtain ⟨a, ha, hc⟩ := outcome_bind.mp hc
  exact outcome_bind.mpr ⟨make a, h a ha, step a ha c hc⟩

/-- Both may begin with the same run. -/
theorem after {run : Run α} {next : α → Run γ} {next' : α → Run δ}
    (step : ∀ a, run.outcome = .ok a → Carries make' (next a) (next' a)) :
    Carries make' (run >>= next) (run >>= next') :=
  bind (show Carries id run run from fun _ ha => ha) step

end Carries
end Run

theorem Query.endpoint_eq_field {q : Query} : q.endpoint = .field ↔ q.field.isSome := by
  unfold endpoint
  split_ifs <;> simp_all

/-- An answer with something made of its data. -/
def Response.mapData (response : Response) (make : Value → Value) : Response :=
  { response with data := make response.data }

namespace Engine
variable {e : Engine} {ctx : Context} {r : Resource} {f : Field} {fields all : List Field}

/-! Relations followed from a read -/

/-- All records of a resource, as a batch at the root. -/
def rootBatch (e : Engine) (r : Resource) (fields : List Field) : Batch :=
  ⟨none, r, fields, r.source.elim [none] fun source => (e.store.records source).map some, Level.root⟩

/-- Whichever records a query reads, the computed relations that are followed from them can be loaded
for all of them together. -/
def LoadsRegularly (e : Engine) (ctx : Context) : Prop :=
  ∀ r fields more, e.findResource ctx.query = .ok r →
    takeFields r "get" Level.root ctx e.settings = .ok fields →
      Relation.ReflTransGen (Batch.Leads e ctx) (e.rootBatch r fields) more → more.Regular e ctx

theorem LoadsRegularly.fewer (h : e.LoadsRegularly ctx) (found : e.findResource ctx.query = .ok r)
    (taken : takeFields r "get" Level.root ctx e.settings = .ok all) (sub : fields ⊆ all) {more : Batch}
    (reached : Relation.ReflTransGen (Batch.Leads e ctx) (e.rootBatch r fields) more) :
    more.Regular e ctx := by
  have again {f : Field} {t : Target} (follows : (e.rootBatch r fields).Follows e ctx f t) :
      (e.rootBatch r all).Follows e ctx f t :=
    ⟨⟨sub follows.1.1, follows.1.2⟩, follows.2⟩
  rcases reached.cases_head with rfl | ⟨_, ⟨f, t, follows, rfl⟩, reached⟩
  · exact fun f t follows => h r all _ found taken .refl f t (again follows)
  · exact h r all more found taken (.head ⟨f, t, again follows, rfl⟩ reached)

/-! What a field as the target shows -/

/-- Whether a query targets a field whose relation is followed. -/
def followsField (e : Engine) (q : Query) : Bool :=
  q.take.isSome && (q.field.bind fun name =>
    (e.findResource q).toOption.bind fun r => r.field? name).any fun f => f.link?.isSome

/-- What a query reads as a resource, a record or a field, with the lists cut below its root. -/
def cutRead (e : Engine) (q : Query) (hits : List String → Bool) (size : Nat) (v : Value) : Value :=
  if q.field.isNone then v.cut q.nests hits size []
  else if e.followsField q then
    v.cut q.nests hits size (q.named (Level.root.enter (q.field.getD "")))
  else v

theorem cutRead_null (q : Query) (hits : List String → Bool) (size : Nat) :
    e.cutRead q hits size .null = .null := by
  unfold cutRead
  split
  · rfl
  · split <;> rfl

theorem cutRead_headD (q : Query) (hits : List String → Bool) (size : Nat) (rows : List Value) :
    (rows.map (e.cutRead q hits size)).headD .null = e.cutRead q hits size (rows.headD .null) := by
  cases rows with
  | nil => exact (cutRead_null q hits size).symm
  | cons row rows => rfl

theorem cutRead_arr {q : Query} {hits : List String → Bool} {size : Nat} (field : q.field = none)
    (unhit : hits [] = false) (rows : List Value) :
    e.cutRead q hits size (.arr rows) = .arr (rows.map (e.cutRead q hits size)) := by
  have cut : e.cutRead q hits size = Value.cut q.nests hits size [] := by
    funext v
    simp [cutRead, field]
  rw [cut, Value.cut, Value.cutItems_eq, unhit, if_neg Bool.false_ne_true]

/-- A row at the root of a field is made of its column. -/
theorem assemble_collapsed {g : Value → Value} (null : g .null = .null) (names : List String)
    (columns : List (List Value)) (rows : Nat) :
    assemble true names (columns.map (List.map g)) rows = (assemble true names columns rows).map g := by
  rw [assemble, assemble, List.map_map]
  refine List.map_congr_left fun row _ => ?_
  simp only [if_true, Function.comp_apply]
  rw [← cell_map null]
  cases columns <;> rfl

/-- Where its relation is not followed, a field as the target is shown as it is. -/
theorem columnOf_plain {render : Renderer} {scope : Scope} {b : Batch} {records : List (Option Record)}
    {values : List Value} (root : (ctx.query.field.isSome && b.level.isEmpty) = true)
    (flat : (ctx.query.take.isSome && f.link?.isSome) = false) :
    e.columnOf ctx render scope b f records values =
      pure (values.map (shallow ((e.server.target? b.resource f).map Resource.idKey))) := by
  unfold columnOf isDeep
  rw [if_pos root]
  cases htake : ctx.query.take.isSome with
  | false => rfl
  | true =>
    rw [htake, Bool.true_and, Option.isSome_eq_false_iff, Option.isNone_iff_eq_none] at flat
    simp only [flat, root, Bool.not_true, Bool.false_eq_true, if_false, Option.elim_none, if_true]

section reading
variable {request : Value} {q q' : Query} {hits : List String → Bool} {size : UInt64}
  (blind : e.QueryFree request) (resizes : e.Resizes request hits size q q')
include resizes

theorem findResource_resized : e.findResource q' = e.findResource q := by
  obtain ⟨space, resource, -⟩ := Query.rootFeatures_inj.mp resizes.resized.self.root
  unfold findResource
  rw [space, resource]

theorem levelBound_resized : e.levelBound q' = e.levelBound q := by
  rw [levelBound, levelBound, resizes.resized.self.depth]

theorem record_resized : q'.record = q.record := by
  obtain ⟨-, -, record, -⟩ := Query.rootFeatures_inj.mp resizes.resized.self.root
  exact record

/-- The root of what is read has the same scope, if the smaller page is not there. -/
theorem scope_root_resized (unhit : q.field = none → hits [] = false) :
    ∃ scope scope', q.scope Level.root = .ok scope ∧ q'.scope Level.root = .ok scope' ∧
      scope.Resembles false size scope' ∧ ∀ predicate, scope.state?.bind Query.filter = some predicate →
        Indifferent request fun ctx => resolve ctx.scope predicate := by
  have alike := resizes.resized.self
  cases hfield : q.field with
  | none =>
    rw [unhit hfield] at alike
    exact ⟨_, _, scope_root_list hfield, scope_root_list (resizes.resized.field.trans hfield), .state alike,
      resizes.filters [] q rfl⟩
  | some name =>
    have hfield' := resizes.resized.field.trans hfield
    refine ⟨.state q.rootFeatures, .state q'.rootFeatures, by simp [Query.scope, hfield, Level.root],
      by simp [Query.scope, hfield', Level.root], ?_, nofun⟩
    rw [alike.root]
    exact .state (.refl _)

include blind

theorem takeFields_root_resized (known : r ∈ e.resources) :
    takeFields r "get" Level.root ⟨q', request⟩ e.settings =
      takeFields r "get" Level.root ⟨q, request⟩ e.settings := by
  cases hfield : q.field with
  | none =>
    exact takeFields_resized blind resizes known (by simp [hfield]) (scope_root_list hfield)
  | some name =>
    have hfield' : q'.field = some name := resizes.resized.field.trans hfield
    unfold takeFields targetField
    simp only [hfield, hfield', Level.root]
    cases hnamed : r.field? name with
    | none => rfl
    | some f =>
      have allowed : canTakeField f "get" ⟨q', request⟩ e.settings =
          canTakeField f "get" ⟨q, request⟩ e.settings :=
        indifferent_canTakeField (blind.resources r known).rulesBlind (List.mem_of_find?_eq_some hnamed)
          "get" q' q
      simp only [allowed]

/-- The column of a field as the target is cut if its relation is followed. -/
theorem renderColumn_targeted {name : String} {fuel : Nat} {scope scope' : Scope}
    {records : List (Option Record)} {column : List Value} (hfield : q.field = some name)
    (found : e.findResource q = .ok r) (named : r.field? name = some f) (mem : f ∈ fields)
    (among : fields ⊆ r.fields) (hscope : q.scope Level.root = .ok scope)
    (regular : ∀ more, Relation.ReflTransGen (Batch.Leads e ⟨q, request⟩) (e.rootBatch r fields) more →
      more.Regular e ⟨q, request⟩)
    (sub : records ⊆ (e.rootBatch r fields).records)
    (h : (e.renderColumn ⟨q, request⟩ (e.render ⟨q, request⟩ fuel) scope
      { e.rootBatch r fields with records := records } f).outcome = .ok column) :
    (e.renderColumn ⟨q', request⟩ (e.render ⟨q', request⟩ fuel) scope'
      { e.rootBatch r fields with records := records } f).outcome =
        .ok (column.map (e.cutRead q hits size.toNat)) := by
  have known := mem_resources_of_findResource found
  have hfield' : q'.field = some name := resizes.resized.field.trans hfield
  have hname : f.name = name := by simpa using List.find?_some named
  have root : (q.field.isSome && Level.root.isEmpty) = true := by simp [hfield, Level.root]
  have root' : (q'.field.isSome && Level.root.isEmpty) = true := by simp [hfield', Level.root]
  have taken : q'.take.isSome = q.take.isSome := resizes.resized.self.taken
  have follows : e.followsField q = (q.take.isSome && f.link?.isSome) := by
    simp [followsField, hfield, found, named, Except.toOption]
  cases followed : q.take.isSome && f.link?.isSome with
  | true =>
    have cut : e.cutRead q hits size.toNat =
        Value.cut q.nests hits size.toNat (q.named (Level.root.enter f.name)) := by
      funext v
      simp [cutRead, hfield, follows, followed, hname]
    obtain ⟨deep, linked⟩ := Bool.and_eq_true_iff.mp followed
    obtain ⟨link, hlink⟩ := Option.isSome_iff_exists.mp linked
    rw [cut]
    refine renderColumn_followed (b := e.rootBatch r fields) blind resizes known mem among hscope ?_ ?_
      hlink regular (fun t follows records sub rows h => ?_) sub h
    · exact (if_pos root).trans deep
    · exact (if_pos root').trans (taken.trans deep)
    · obtain ⟨below, known, among⟩ := follows_target follows
      exact render_resized blind resizes fuel below known among
        (fun more reached => regular more (.head ⟨f, t, follows, rfl⟩ reached)) sub h
  | false =>
    have whole : e.cutRead q hits size.toNat = id := by
      funext v
      simp [cutRead, hfield, follows, followed]
    have values := blind.fieldValues known (among mem) records q q'
    rw [renderColumn_eq] at h ⊢
    rw [whole, List.map_id, ← h]
    change (Run.ofExcept (records.mapM (fieldValue ⟨q', request⟩ r f)) >>= _).outcome =
      (Run.ofExcept (records.mapM (fieldValue ⟨q, request⟩ r f)) >>= _).outcome
    rw [← values]
    refine congrArg Run.outcome (congrArg _ (funext fun values => ?_))
    exact (columnOf_plain (b := e.rootBatch r fields) root' (by rw [taken, followed])).trans
      (columnOf_plain (b := e.rootBatch r fields) root followed).symm

/-- What a read renders at its root is cut below. -/
theorem renderRoot_resized (found : e.findResource q = .ok r)
    (taken : takeFields r "get" Level.root ⟨q, request⟩ e.settings = .ok all) (sub : fields.Sublist all)
    (regular : e.LoadsRegularly ⟨q, request⟩) {records : List (Option Record)}
    (stored : records ⊆ (e.rootBatch r fields).records) :
    Run.Carries (List.map (e.cutRead q hits size.toNat)) (e.renderRoot ⟨q, request⟩ r fields records)
      (e.renderRoot ⟨q', request⟩ r fields records) := by
  intro rows h
  have known := mem_resources_of_findResource found
  have among : fields ⊆ r.fields := fun f hf => (gettable_of_takeFields taken (sub.subset hf)).mem
  have loads : ∀ more, Relation.ReflTransGen (Batch.Leads e ⟨q, request⟩) (e.rootBatch r fields) more →
      more.Regular e ⟨q, request⟩ := fun _ => regular.fewer found taken sub.subset
  unfold renderRoot at h ⊢
  rw [show e.levelBound (Context.query ⟨q', request⟩) = e.levelBound q from levelBound_resized resizes]
  cases hfield : q.field with
  | none =>
    have cut : e.cutRead q hits size.toNat = Value.cut q.nests hits size.toNat (q.named Level.root) := by
      funext v
      simp [cutRead, hfield, Query.named, Level.root, Level.names]
    rw [cut]
    exact render_resized (b := e.rootBatch r fields) blind resizes _ (by simp [hfield]) known among
      loads stored h
  | some name =>
    obtain ⟨f, named, -, rfl⟩ := takeFields_targeted (by simp [hfield]) taken
    obtain ⟨fuel, hfuel⟩ := e.levelBound_pos q
    rw [hfuel] at h ⊢
    obtain ⟨scope, columns, hscope, hcolumns, rfl⟩ := outcome_render.mp h
    have root (q : Query) (h : q.field = some name) : (q.field.isSome && Level.root.isEmpty) = true := by
      simp [h, Level.root]
    have hfield' := resizes.resized.field.trans hfield
    obtain ⟨scope', hscope'⟩ : ∃ scope', q'.scope Level.root = .ok scope' :=
      ⟨.state q'.rootFeatures, by simp [Query.scope, hfield', Level.root]⟩
    refine outcome_render.mpr ⟨scope', columns.map (List.map (e.cutRead q hits size.toNat)), hscope', ?_, ?_⟩
    · refine List.forall₂_map_right_iff.mpr
        (((List.forall₂_and_left _ _).mpr ⟨fun g hg => hg, hcolumns⟩).imp fun g column h => ?_)
      obtain ⟨mem, h⟩ := h
      obtain rfl := List.mem_singleton.mp (sub.subset mem)
      exact renderColumn_targeted blind resizes (by simpa using hfield) found (by simpa [hfield] using named)
        mem among hscope loads stored h
    · dsimp only
      rw [root q hfield, root q' hfield', assemble_collapsed (cutRead_null q hits _)]

/-- A read has the same plan. -/
theorem plan_resized (known : r ∈ e.resources) (unhit : q.field = none → hits [] = false)
    {action source : String} {endpoint : Endpoint} {access : Access}
    (allowed : can r action ⟨q, request⟩ none = .ok access) :
    e.plan ⟨q', request⟩ r endpoint access source = e.plan ⟨q, request⟩ r endpoint access source := by
  obtain ⟨scope, scope', hscope, hscope', alike, filters⟩ := scope_root_resized resizes unhit
  have prepared : e.prepareAll r ⟨q', request⟩ access (scope.state?.bind Query.filter) =
      e.prepareAll r ⟨q, request⟩ access (scope.state?.bind Query.filter) :=
    prepareAll_congr (blind.permissions r known action q access allowed) filters
  unfold plan rootPredicates
  simp only [hscope, hscope', bind, Except.bind, alike.page, alike.filter, alike.sort, prepared,
    record_resized resizes]

/-- The same resource is open, in the same way. -/
theorem opening_resized (endpoint : Endpoint) :
    e.opening ⟨q', request⟩ endpoint = e.opening ⟨q, request⟩ endpoint := by
  unfold opening
  dsimp only
  rw [findResource_resized resizes]
  cases found : e.findResource q with
  | error fault => rfl
  | ok r =>
    have known := mem_resources_of_findResource found
    have access : can r ("get." ++ endpoint.name) ⟨q', request⟩ none =
        can r ("get." ++ endpoint.name) ⟨q, request⟩ none :=
      indifferent_can (blind.resources r known).rulesBlind _ q' q
    rw [Except.ok_bind, Except.ok_bind, access, takeFields_root_resized blind resizes known]

/-- The same records are loaded. -/
theorem load_resized {endpoint : Endpoint} {o : Opening}
    (opened : e.opening ⟨q, request⟩ endpoint = .ok o) (unhit : q.field = none → hits [] = false)
    (path : Option String) :
    e.load ⟨q', request⟩ endpoint path o = e.load ⟨q, request⟩ endpoint path o := by
  obtain ⟨found, allowed, -, -⟩ := opening_eq_ok.mp opened
  have same (fetched : Fetched) : theRecord q' o.resource endpoint fetched =
      theRecord q o.resource endpoint fetched := by
    unfold theRecord
    rw [record_resized resizes]
  unfold load loadFrom showing
  simp only [plan_resized blind resizes (mem_resources_of_findResource found) unhit allowed, same]

omit blind resizes in
/-- The records that are loaded are stored. -/
theorem Loads.records_subset {endpoint : Endpoint} {path : Option String} {o : Opening} {l : Loaded}
    (loads : e.Loads ctx endpoint path o l) : l.records ⊆ (e.rootBatch o.resource l.fields).records := by
  have kept {source : String} {p : Plan} {fetched : Fetched} (stored : o.resource.source = some source)
      (planned : e.plan ctx o.resource endpoint o.access source = .ok p)
      (fetches : e.store.fetch p.fetch = .ok fetched) {records : List Record}
      (h : records ⊆ fetched.records) :
      records.map some ⊆ (e.rootBatch o.resource l.fields).records := by
    obtain ⟨_, _, _, settled⟩ := planned_of_plan planned
    have among := List.Subset.trans h (settled.source ▸ Store.fetch_subset fetches)
    simpa [rootBatch, stored] using List.map_subset some among
  cases loads with
  | computed unstored => simp [rootBatch, unstored]
  | list stored planned fetches _ turned =>
    exact kept stored planned fetches fun _ => mem_of_mem_turnPage turned
  | @one _ _ _ record stored planned fetches _ first =>
    change List.map some [record] ⊆ _
    exact kept stored planned fetches (by simpa using mem_of_theRecord first)

omit blind resizes in
/-- Rows that are cut make an answer that is cut. -/
theorem Loads.answer_map {endpoint : Endpoint} {path : Option String} {o : Opening} {l : Loaded}
    (loads : e.Loads ctx endpoint path o l) (list : endpoint = .resource → q.field = none)
    (unhit : q.field = none → hits [] = false) (size : Nat) (rows : List Value) :
    l.answer (rows.map (e.cutRead q hits size)) = (l.answer rows).mapData (e.cutRead q hits size) := by
  cases loads with
  | computed | one => exact congrArg (Response.mk · []) (cutRead_headD q hits size rows)
  | @list _ _ _ _ page _ planned _ many =>
    have field := list ((many_of_plan planned).mp many).1
    exact congrArg (Response.mk · page) (cutRead_arr field (unhit field) rows).symm

/-- A resource, a record or a field is read with the lists cut below its root. -/
theorem getResource_resized (regular : e.LoadsRegularly ⟨q, request⟩) {endpoint : Endpoint}
    (list : endpoint = .resource → q.field = none) (unhit : q.field = none → hits [] = false)
    (path : Option String) :
    Run.Carries (Response.mapData · (e.cutRead q hits size.toNat))
      (e.getResource ⟨q, request⟩ endpoint path) (e.getResource ⟨q', request⟩ endpoint path) := by
  rw [getResource_eq, getResource_eq, opening_resized blind resizes]
  refine .after fun o opened => ?_
  rw [load_resized blind resizes opened unhit]
  refine .after fun l loads => ?_
  obtain ⟨found, -, -, taken⟩ := opening_eq_ok.mp opened
  have loads := load_eq_ok.mp loads
  refine .bind (renderRoot_resized blind resizes found taken loads.sublist regular
    loads.records_subset) fun rows _ => ?_
  rw [loads.answer_map list unhit]
  exact .ok _ _

end reading

/-! Children of servers and spaces -/

/-- What a child answers, cut in its own way if it is taken with a state. -/
def cutChild (take : Option (Entries Take)) (cut : String → Value → Value) (name : String) (v : Value) :
    Value :=
  ((childEntry take name).filter fun entry => entry.2.isNested).elim v fun entry => cut entry.1 v

/-- What children answer, each of them cut in its own way. -/
def cutChildren (take : Option (Entries Take)) (cut : String → Value → Value) (v : Value) : Value :=
  .obj ((v.obj?.getD []).map fun child => (child.1, cutChild take cut child.1 child.2))

theorem gathered_cut (take : Option (Entries Take)) (cut : String → Value → Value) (names : List String)
    (part : String → Option Response) :
    gathered names (fun name => (part name).map (Response.mapData · (cutChild take cut name))) =
      (gathered names part).mapData (cutChildren take cut) := by
  unfold gathered cutChildren Response.mapData
  simp only [Value.obj?, Option.getD_some, List.map_filterMap, Option.map_map]
  refine congrArg (Response.mk _) (congrArg _ (List.flatMap_congr fun name _ => ?_))
  cases part name <;> rfl

section children
variable {request : Value} {q q' : Query} {hits : List String → Bool} {size : UInt64}

/-- The same entry decides over a child. -/
theorem childEntry_resembles {hit : Bool} (alike : q.Resembles hit size q') (name : String) :
    Option.Rel (fun a b : String × Take => a.1 = b.1 ∧ Take.Kindred a.2 b.2) (childEntry q.take name)
      (childEntry q'.take name) := by
  have taken := alike.taken
  have entries := alike.entries
  unfold Query.entry? at entries
  unfold childEntry
  cases htake : q.take with
  | none =>
    rw [htake, Option.isSome_none, Option.isSome_eq_false_iff, Option.isNone_iff_eq_none] at taken
    rw [taken]
    exact .some ⟨rfl, .flag true⟩
  | some es =>
    rw [htake] at taken entries
    obtain ⟨es', htake'⟩ := Option.isSome_iff_exists.mp taken
    rw [htake'] at entries ⊢
    have named : Option.Rel Take.Kindred (Entries.get? es name) (Entries.get? es' name) := entries name
    have starred : Option.Rel Take.Kindred (Entries.get? es "*") (Entries.get? es' "*") := entries "*"
    dsimp only
    generalize Entries.get? es name = x at named ⊢
    generalize Entries.get? es' name = y at named ⊢
    generalize Entries.get? es "*" = x' at starred ⊢
    generalize Entries.get? es' "*" = y' at starred ⊢
    cases named with
    | some kindred => exact .some ⟨rfl, kindred⟩
    | none =>
      cases starred with
      | some kindred => exact .some ⟨rfl, kindred⟩
      | none => exact .none

variable (resized : q.Resized hits size q')
include resized

theorem getChild_resized {get get' : Context → Option String → Run Response}
    {cut : String → Value → Value} {name : String}
    (own : ∀ key state sub sub' below, childEntry q.take name = some (key, .nested state) →
      childQuery q key name = .ok sub → childQuery q' key name = .ok sub' →
        sub.Resized (fun names => hits ((Level.ofText key).names ++ names)) size sub' →
          Run.Carries (Response.mapData · (cut key))
            (get ⟨sub, request⟩ below) (get' ⟨sub', request⟩ below))
    (path : Option String) :
    Run.Carries (Option.map (Response.mapData · (cutChild q.take cut name)))
      (getChild get ⟨q, request⟩ path name) (getChild get' ⟨q', request⟩ path name) := by
  have entry := childEntry_resembles resized.self name
  unfold getChild cutChild
  dsimp only
  generalize childEntry q'.take name = found' at entry ⊢
  cases hfound : childEntry q.take name with
  | none =>
    rw [hfound] at entry
    cases entry
    exact .ok _ _
  | some found =>
    rw [hfound] at entry
    obtain ⟨key, taken⟩ := found
    cases entry with
    | @some _ found' h =>
      obtain ⟨key', taken'⟩ := found'
      obtain ⟨rfl, kindred⟩ := h
      cases kindred with
      | flag given => cases given <;> exact .ok _ _
      | nested state state' =>
        intro answer h
        obtain ⟨sub, hsub, h⟩ := Run.outcome_bind.mp h
        obtain ⟨sub', hsub', below⟩ := resized.child hsub
        obtain ⟨response, hresponse, h⟩ := Run.outcome_bind.mp h
        cases h
        exact Run.outcome_bind.mpr ⟨sub', hsub', Run.outcome_bind.mpr
          ⟨_, own key state sub sub' _ hfound hsub hsub' below response hresponse, rfl⟩⟩

/-- Children are read with the lists cut that each of them has. -/
theorem getChildren_resized {get get' : Context → Option String → Run Response}
    {cut : String → Value → Value}
    (own : ∀ key name state sub sub' below, childEntry q.take name = some (key, .nested state) →
      childQuery q key name = .ok sub → childQuery q' key name = .ok sub' →
        sub.Resized (fun names => hits ((Level.ofText key).names ++ names)) size sub' →
          Run.Carries (Response.mapData · (cut key))
            (get ⟨sub, request⟩ below) (get' ⟨sub', request⟩ below))
    (path : Option String) (names : List String) :
    Run.Carries (Response.mapData · (cutChildren q.take cut))
      (getChildren get ⟨q, request⟩ path names) (getChildren get' ⟨q', request⟩ path names) := by
  intro response h
  obtain ⟨defined, rfl⟩ := getChildren_eq_ok.mp h
  have child {name : String} {part : Option Response}
      (hpart : (getChild get ⟨q, request⟩ path name).outcome = .ok part) :=
    getChild_resized resized (fun key state => own key name state) path part hpart
  dsimp only
  rw [← gathered_cut]
  refine getChildren_eq_ok.mpr ⟨fun name hname => ?_, gathered_congr fun name hname => ?_⟩
  · obtain ⟨part, hpart⟩ := defined name hname
    exact ⟨_, child hpart⟩
  · obtain ⟨part, hpart⟩ := defined name hname
    rw [child hpart, hpart]
    rfl

end children

/-! The queries of children -/

section asked
variable {request : Value} {q q' sub sub' : Query} {hits : List String → Bool} {size : UInt64}
  {key name : String}

theorem Resizes.child (h : e.Resizes request hits size q q') (hsub : childQuery q key name = .ok sub)
    (resized : sub.Resized (fun names => hits ((Level.ofText key).names ++ names)) size sub') :
    e.Resizes request (fun names => hits ((Level.ofText key).names ++ names)) size sub sub' where
  resized := resized
  filters := h.filters.child hsub
  smaller names state hit led := by
    obtain ⟨located, hfollow, leveled, -⟩ := Query.childQuery_rooted hsub
    cases names with
    | nil =>
      cases led
      have same := h.resized (Level.ofText key).names
      rw [List.append_nil] at hit
      rw [hfollow, hit] at same
      generalize q'.follow (Level.ofText key).names = found at same
      cases same with
      | some alike =>
        cases alike with
        | flag unhit => cases unhit
        | @state a b alike =>
          obtain ⟨-, -, -, page, -⟩ := Query.leveledFeatures_inj.mp leveled
          rw [page]
          exact h.smaller _ a hit hfollow
    | cons first more => exact h.smaller _ state hit (Query.follow_below hfollow leveled first more ▸ led)

/-- What names lead to in the query of a child leads on as it does below the key of the child. -/
theorem nests_child (hsub : childQuery q key name = .ok sub) :
    sub.nests = fun names => q.nests ((Level.ofText key).names ++ names) := by
  obtain ⟨located, hfollow, leveled, -⟩ := Query.childQuery_rooted hsub
  funext names next
  unfold Query.nests Query.below?
  cases names with
  | nil =>
    obtain ⟨take, -⟩ := Query.leveledFeatures_inj.mp leveled
    rw [List.append_nil, hfollow]
    cases located <;> simp [Query.follow, Query.entry?, Located.state?, take]
  | cons first more => rw [Query.follow_below hfollow leveled]

theorem take_child (hsub : childQuery q key name = .ok sub) :
    sub.take = (q.below? (Level.ofText key).names).bind Query.take := by
  obtain ⟨located, hfollow, leveled, -⟩ := Query.childQuery_rooted hsub
  obtain ⟨take, -⟩ := Query.leveledFeatures_inj.mp leveled
  rw [take, Query.below?, hfollow]
  cases located <;> rfl

/-- The queries that are answered for a query, each with the names that lead to it: itself, and those of
the children that are taken with a state. -/
inductive AsksAt : Query → List String → Query → Prop
  | self (q : Query) : AsksAt q [] q
  | child {q sub asked state : Query} {key name : String} {names : List String}
    (children : AsksChildren q) (taken : childEntry q.take name = some (key, .nested state))
    (child : childQuery q key name = .ok sub) (h : AsksAt sub names asked) :
    AsksAt q ((Level.ofText key).names ++ names) asked

/-- What a space answers, from a level that names lead to, with the lists of its resources cut. -/
def cutSpace (q : Query) (hits : List String → Bool) (size : Nat) (names : List String) : Value → Value :=
  cutChildren ((q.below? names).bind Query.take) fun key =>
    Value.cut q.nests hits size (names ++ (Level.ofText key).names)

/-- What a query answers, with the lists of relations cut that stand where the names are hit. -/
def cutAnswer (e : Engine) (q : Query) (hits : List String → Bool) (size : Nat) : Value → Value :=
  if q.endpoint = .server then
    cutChildren q.take fun key => cutSpace q hits size (Level.ofText key).names
  else if q.endpoint = .space then cutSpace q hits size []
  else e.cutRead q hits size

/-- The lists of a child are those below its key. -/
theorem cutRead_child (hsub : childQuery q key name = .ok sub) (field : sub.field = none) (size : Nat) :
    e.cutRead sub (fun names => hits ((Level.ofText key).names ++ names)) size =
      Value.cut q.nests hits size (Level.ofText key).names := by
  funext v
  rw [cutRead, field, Option.isNone_none, if_pos rfl, nests_child hsub, Value.cut_append, List.append_nil]

theorem cutSpace_child (hsub : childQuery q key name = .ok sub) (size : Nat) :
    cutSpace sub (fun names => hits ((Level.ofText key).names ++ names)) size [] =
      cutSpace q hits size (Level.ofText key).names := by
  have below : (sub.below? []).bind Query.take = (q.below? (Level.ofText key).names).bind Query.take :=
    take_child hsub
  unfold cutSpace
  rw [below]
  refine congrArg _ (funext fun inner => funext fun v => ?_)
  rw [nests_child hsub, Value.cut_append, List.nil_append]

end asked

section executing
variable {request : Value} {q q' : Query} {hits : List String → Bool} {size : UInt64}
  (blind : e.QueryFree request) (resizes : e.Resizes request hits size q q')
  (regular : ∀ names asked, AsksAt q names asked → e.LoadsRegularly ⟨asked, request⟩)
  (unhit : ∀ names asked, AsksAt q names asked → asked.endpoint = .resource ∨ asked.endpoint = .record →
    hits names = false)
include blind resizes regular unhit

/-- A space is read with the lists cut of its resources. -/
theorem getSpace_resized (asks : AsksChildren q) {owner : String} (hspace : q.space = some owner)
    (path : Option String) :
    Run.Carries (Response.mapData · (cutSpace q hits size.toNat []))
      (e.getSpace ⟨q, request⟩ owner path) (e.getSpace ⟨q', request⟩ owner path) := by
  unfold getSpace
  refine .after fun space _ => getChildren_resized resizes.resized
    (fun key name state sub sub' below taken hsub hsub' resized => ?_) path space.resources.keys
  obtain ⟨record, field, -, resource⟩ := childQuery_targets asks hsub
  have target : sub.endpoint = .resource := by
    simp [Query.endpoint, record, field, resource, hspace]
  have asked := AsksAt.child asks taken hsub (.self sub)
  rw [List.nil_append, ← cutRead_child (e := e) hsub field]
  refine getResource_resized blind (resizes.child hsub resized) (regular _ _ asked) (fun _ => field)
    (fun _ => unhit _ _ asked (.inl target)) below

/-- A query is answered with the lists cut that stand at the level with the smaller page. -/
theorem execute_resized (reads : q.action.getD .get = .get) :
    Run.Carries (Response.mapData · (e.cutAnswer q hits size.toNat)) (e.execute q request)
      (e.execute q' request) := by
  obtain ⟨space, resource, record, field, action, -⟩ := Query.rootFeatures_inj.mp resizes.resized.self.root
  have endpoint : q'.endpoint = q.endpoint := by
    simp only [Query.endpoint, space, resource, record, field]
  have reads' : q'.action.getD .get = .get := by rw [action, reads]
  have untargeted (h : q.endpoint = .resource) : q.field = none := by
    simpa [h] using Query.endpoint_eq_field (q := q)
  have targeted (h : q.field = none) : q.endpoint ≠ .field := by simp [Query.endpoint_eq_field, h]
  cases htarget : q.endpoint with
  | resource | record | field =>
    have cut : e.cutAnswer q hits size.toNat = e.cutRead q hits size.toNat := by simp [cutAnswer, htarget]
    rw [cut, execute_reads request reads (by simp [htarget]),
      execute_reads request reads' (by simp [endpoint, htarget]), endpoint, htarget]
    refine getResource_resized blind resizes (regular _ _ (.self q)) (fun list => ?_)
      (fun none => unhit _ _ (.self q) ?_) none
    · exact untargeted (htarget.trans list)
    · have := targeted none
      simp_all
  | space =>
    have asks : AsksChildren q := asksChildren_iff.mpr (.inr htarget)
    have asks' : AsksChildren q' := asksChildren_iff.mpr (.inr (endpoint.trans htarget))
    obtain ⟨owner, hspace⟩ := space_of_space htarget
    have cut : e.cutAnswer q hits size.toNat = cutSpace q hits size.toNat [] := by simp [cutAnswer, htarget]
    rw [cut, execute_getSpace reads asks hspace, execute_getSpace reads' asks' (space.trans hspace)]
    exact getSpace_resized blind resizes regular unhit asks hspace none
  | server =>
    have asks : AsksChildren q := asksChildren_iff.mpr (.inl htarget)
    have asks' : AsksChildren q' := asksChildren_iff.mpr (.inl (endpoint.trans htarget))
    have hspace := space_of_server htarget
    have cut : e.cutAnswer q hits size.toNat =
        cutChildren q.take fun key => cutSpace q hits size.toNat (Level.ofText key).names := by
      simp [cutAnswer, htarget]
    rw [cut, execute_getServer reads asks hspace, execute_getServer reads' asks' (space.trans hspace)]
    refine getChildren_resized resizes.resized (fun key name state sub sub' below taken hsub hsub' resized => ?_)
      none e.server.spaces.keys
    obtain ⟨record, field, owned, resource⟩ := childQuery_targets asks hsub
    rw [hspace] at resource
    obtain ⟨hspace', -⟩ := Query.rootFeatures_inj.mp resized.self.root
    dsimp only
    rw [hspace', owned, ← cutSpace_child hsub]
    exact getSpace_resized blind (resizes.child hsub resized)
      (fun names asked h => regular _ _ (.child asks taken hsub h))
      (fun names asked h => unhit _ _ (.child asks taken hsub h)) ⟨resource, record, field⟩ owned below

end executing

end Engine
end RecordGraph
