import RecordGraph.Proofs.Run.Children
import RecordGraph.Proofs.Run.Levels
import RecordGraph.Proofs.Run.Single

/-!
What a response shows. At every depth an object has the fields that the requester may get and that the
level takes, and no others.
-/
namespace RecordGraph

theorem length_deal {α : Type} (ns : List Nat) (xs : List α) : (deal ns xs).length = ns.length := by
  induction ns generalizing xs with
  | nil => rfl
  | cons n ns ih => rw [deal, List.length_cons, List.length_cons, ih]

theorem mem_of_mem_deal {α : Type} {ns : List Nat} {xs part : List α} (hpart : part ∈ deal ns xs) {x : α}
    (hx : x ∈ part) : x ∈ xs := by
  induction ns generalizing xs with
  | nil => cases hpart
  | cons n ns ih =>
    rw [deal, List.mem_cons] at hpart
    rcases hpart with rfl | hpart
    · exact List.mem_of_mem_take hx
    · exact List.mem_of_mem_drop (ih hpart)

namespace Engine
variable {e : Engine} {ctx : Context} {r : Resource} {f : Field} {scope : Scope} {level : Level}

/-! What a level admits -/

/-- A field that may be shown at a level: the requester may get it, the level does not leave it out, and
if it is lazy then the level asks for it by its name or by a star, or it is the id field of a level that
says what it takes. -/
structure Admits (e : Engine) (ctx : Context) (r : Resource) (scope : Scope) (f : Field) : Prop where
  mem : f ∈ r.fields
  allowed : canTakeField f "get" ctx e.settings = .ok true
  kept : ∀ entries, scope.taken r.idName = some entries → entries.get? f.name ≠ some (.flag false)
  requested : f.isLazy → ∃ entries, scope.taken r.idName = some entries ∧
    ((entries.get? f.name).any Take.isTaken ∨ (entries.get? "*").any Take.isTaken ∨ f.name = r.idName)

/-- What is selected is taken and allowed. -/
theorem of_mem_permitted {take : Option (Entries Take)} {idName action : String} {settings : Settings}
    {all fields : List Field} (h : permitted take idName action ctx settings all = .ok fields)
    (hf : f ∈ fields) :
    f ∈ all ∧ shouldTake f take idName ∧ canTakeField f action ctx settings = .ok true := by
  induction all generalizing fields with
  | nil =>
    cases h
    cases hf
  | cons g all ih =>
    obtain ⟨taken, rest, htaken, hrest, rfl⟩ := permitted_cons.mp h
    have later (hf : f ∈ rest) := (ih hrest hf).imp_left (List.mem_cons_of_mem g)
    cases taken with
    | false => exact later hf
    | true =>
      rcases List.mem_cons.mp hf with rfl | hf
      · split at htaken
        · exact ⟨List.mem_cons_self, ‹_›, htaken⟩
        · cases htaken
      · exact later hf

theorem admits_of_takeFields {fields : List Field}
    (below : (ctx.query.field.isSome && level.isEmpty) = false) (hscope : ctx.query.scope level = .ok scope)
    (taken : takeFields r "get" level ctx e.settings = .ok fields) (hf : f ∈ fields) :
    e.Admits ctx r scope f := by
  rw [takeFields_scope below hscope] at taken
  obtain ⟨mem, should, allowed⟩ := of_mem_permitted taken hf
  unfold shouldTake at should
  refine ⟨mem, allowed, fun entries htake => ?_, fun isLazy => ?_⟩
  · rw [htake] at should
    intro excluded
    simp [excluded, Take.isTaken] at should
  · cases htake : scope.taken r.idName with
    | none => simp [htake, isLazy] at should
    | some entries =>
      refine ⟨entries, rfl, ?_⟩
      rw [htake] at should
      cases hentry : entries.get? f.name with
      | some entry =>
        simp only [hentry] at should
        exact .inl should
      | none =>
        simp only [hentry, Bool.or_eq_true, beq_iff_eq] at should
        exact .inr should.symm

/-! What is shown -/

/-- An object that is shown for a record with the given fields. What stands under a relation that is
followed are the objects of its targets, each with the fields that are selected one level below. -/
inductive ShowsRow (e : Engine) (ctx : Context) : Resource → List Field → Level → Value → Prop
  | intro {r : Resource} {fields : List Field} {level : Level} {scope : Scope} {es : Entries Value}
    (target : Field → Resource) (selected : Field → List Field) (items : Field → List Value)
    (governed : ctx.query.scope level = .ok scope)
    (keys : ∀ key, key ∈ es.keys ↔ ∃ f ∈ fields, f.name = key)
    (admitted : ∀ f ∈ fields, e.Admits ctx r scope f)
    (followed : ∀ f ∈ fields, isDeep ctx scope f level →
      (∃ link, f.link? = some link ∧ e.server.resolveLink r.space link = some (target f)) ∧
        takeFields (target f) "get" (level.enter f.name) ctx e.settings = .ok (selected f) ∧
        es.get? f.name = some (linkedValue f (items f)))
    (shown : ∀ f ∈ fields, isDeep ctx scope f level → ∀ item ∈ items f,
      ShowsRow e ctx (target f) (selected f) (level.enter f.name) item) :
    ShowsRow e ctx r fields level (.obj es)

/-! Columns of relations -/

theorem length_loadTargets {t : Target} {records : List (Option Record)} {values : List Value}
    {groups : List (List Record)} (h : (e.loadTargets r f t records values).outcome = .ok groups)
    (same : values.length = records.length) : groups.length = records.length := by
  unfold loadTargets at h
  split at h
  · obtain ⟨found, -, h⟩ := Run.outcome_bind.mp h
    cases h
    rw [List.length_map, parentIds, List.length_map]
  · unfold loadComputed at h
    dsimp only at h
    split at h
    · cases h
      rw [List.length_map, List.length_map, same]
    · obtain ⟨fetched, -, h⟩ := Run.outcome_bind.mp h
      cases h
      rw [List.length_map, List.length_map, same]

/-- A relation that is followed has the rows of its targets for each record. -/
theorem renderColumn_targets {render : Renderer} {b : Batch} {column : List Value} {link : String}
    (deep : isDeep ctx scope f b.level) (hlink : f.link? = some link)
    (h : (e.renderColumn ctx render scope b f).outcome = .ok column) :
    ∃ t groups rendered, e.target ctx b.resource f link b.level = .ok t ∧
      (render (t.child f groups)).outcome = .ok rendered ∧ ∀ i < b.records.length,
        ∃ items ⊆ rendered, cell column i = linkedValue f items := by
  obtain ⟨values, hvalues, h⟩ := (outcome_renderColumn_deep deep hlink).mp h
  obtain ⟨t, groups, rendered, ht, hgroups, hrendered, rfl⟩ := outcome_renderRelated.mp h
  have same : values.length = b.records.length := (Except.mapM_eq_ok.mp hvalues).length_eq.symm
  refine ⟨t, groups, rendered, ht, hrendered, fun i hi => ?_⟩
  have hcut : i < (deal ((t.kept f groups).map List.length) rendered).length := by
    rw [length_deal, List.length_map, Target.kept, List.length_map, length_loadTargets hgroups same]
    exact hi
  refine ⟨_, fun item hitem => mem_of_mem_deal (List.getElem_mem hcut) hitem, ?_⟩
  rw [cell, Target.dealt, List.getElem?_map, List.getElem?_eq_getElem hcut]
  rfl

/-! Rows -/

/-- A batch below the root of a field is rendered as objects with its fields. -/
theorem showsRow_render (built : e.server.Built) {fuel : Nat} {b : Batch} {rows : List Value}
    {selected : List Field} (below : (ctx.query.field.isSome && b.level.isEmpty) = false)
    (known : b.resource ∈ e.resources)
    (taken : takeFields b.resource "get" b.level ctx e.settings = .ok selected)
    (among : b.fields.Sublist selected) (h : (e.render ctx fuel b).outcome = .ok rows) :
    ∀ row ∈ rows, e.ShowsRow ctx b.resource b.fields b.level row := by
  induction fuel generalizing b rows selected with
  | zero => cases h
  | succ fuel ih =>
    obtain ⟨scope, columns, hscope, hcolumns, rfl⟩ := outcome_render.mp h
    have admitted : ∀ f ∈ b.fields, e.Admits ctx b.resource scope f := fun f hf =>
      admits_of_takeFields below hscope taken (among.subset hf)
    have distinct : (b.fields.map Field.name).Nodup := by
      rw [takeFields_scope below hscope] at taken
      exact (nodup_fields built known).sublist ((among.trans (permitted_sublist taken)).map Field.name)
    have hlength : (b.fields.map Field.name).length ≤ columns.length := by
      rw [List.length_map, hcolumns.length_eq]
    intro row hrow
    rw [below, assemble] at hrow
    obtain ⟨i, hi, rfl⟩ := List.mem_map.mp hrow
    rw [List.mem_range] at hi
    have deeper : ∀ f ∈ b.fields, isDeep ctx scope f b.level → ∃ target selected items,
        (∃ link, f.link? = some link ∧ e.server.resolveLink b.resource.space link = some target) ∧
          takeFields target "get" (b.level.enter f.name) ctx e.settings = .ok selected ∧
          Entries.get? (Entries.ofList (((b.fields.map Field.name).zip columns).map
            fun p => (p.1, cell p.2 i))) f.name = some (linkedValue f items) ∧
          ∀ item ∈ items, e.ShowsRow ctx target selected (b.level.enter f.name) item := by
      intro f hf deep
      obtain ⟨column, hcolumn, hget⟩ := get?_cells distinct hcolumns hf
      obtain ⟨link, hlink⟩ := link?_of_renderColumn deep below hcolumn
      obtain ⟨t, groups, rendered, ht, hrendered, hcells⟩ := renderColumn_targets deep hlink hcolumn
      obtain ⟨items, among', hitems⟩ := hcells i hi
      obtain ⟨access, entered, settled⟩ := target_eq_ok.mp ht
      have below' : (ctx.query.field.isSome && t.level.isEmpty) = false :=
        settled.entered ▸ Query.below_enter below f.name
      have rows := ih (b := t.child f groups) below' (mem_resources_of_resolveLink settled.resolved)
        settled.taken (List.Sublist.refl _) hrendered
      rw [← settled.entered]
      exact ⟨t.resource, t.fields, items, ⟨link, hlink, settled.resolved⟩, settled.taken,
        by rw [hget, hitems], fun item hitem => rows item (among' hitem)⟩
    have : Nonempty Resource := ⟨b.resource⟩
    choose! target selected items links selects held shown using deeper
    refine .intro target selected items hscope (fun key => ?_) admitted
      (fun f hf deep => ⟨links f hf deep, selects f hf deep, held f hf deep⟩) shown
    rw [Entries.mem_keys_ofList, List.map_map]
    change key ∈ (((b.fields.map Field.name).zip columns).map Prod.fst) ↔ _
    rw [List.map_fst_zip hlength, List.mem_map]

/-! Answers -/

/-- What is shown for a field as the target of a query: the value of the field, or the objects of its
targets where more of them is taken. Of a resource that is not stored, it is null for a stored field. -/
inductive ShowsField (e : Engine) (ctx : Context) (r : Resource) (f : Field) : Value → Prop
  | plain (record : Option Record) (flat : ctx.query.take = none ∨ f.link? = none) :
    ShowsField e ctx r f (e.shown ctx r f record)
  | followed {link : String} {target : Resource} {selected : List Field} {items : List Value}
    (nested : ctx.query.take.isSome) (hlink : f.link? = some link)
    (resolved : e.server.resolveLink r.space link = some target)
    (taken : takeFields target "get" (Level.root.enter f.name) ctx e.settings = .ok selected)
    (shown : ∀ item ∈ items, e.ShowsRow ctx target selected (Level.root.enter f.name) item) :
    ShowsField e ctx r f (linkedValue f items)
  | absent (unstored : r.source = none) (stored : f.source.isComputed = false) :
    ShowsField e ctx r f .null

/-- What is shown for a resource or a record: an object for each record, with the fields that are
selected at the root, those of them that are computed if the resource is not stored. -/
inductive ShowsResource (e : Engine) (ctx : Context) (r : Resource) : Value → Prop
  | list {fields : List Field} {rows : List Value} (resource : ctx.query.endpoint = .resource)
    (many : r.singleton = false) (stored : r.source.isSome)
    (taken : takeFields r "get" Level.root ctx e.settings = .ok fields)
    (shown : ∀ row ∈ rows, e.ShowsRow ctx r fields Level.root row) : ShowsResource e ctx r (.arr rows)
  | one {fields : List Field} {row : Value} (single : ctx.query.endpoint = .record ∨ r.singleton)
    (stored : r.source.isSome) (taken : takeFields r "get" Level.root ctx e.settings = .ok fields)
    (shown : e.ShowsRow ctx r fields Level.root row) : ShowsResource e ctx r row
  | computed {fields : List Field} {row : Value} (single : r.singleton) (unstored : r.source = none)
    (taken : takeFields r "get" Level.root ctx e.settings = .ok fields)
    (shown : e.ShowsRow ctx r (fields.filter fun f => f.source.isComputed) Level.root row) :
    ShowsResource e ctx r row

/-- What an answer shows. The children of a server or a space are links to them, or what the queries show
that they are taken with. -/
inductive ShowsAnswer (e : Engine) : Context → Value → Prop
  | resource {ctx : Context} {r : Resource} {v : Value}
    (target : ctx.query.endpoint = .resource ∨ ctx.query.endpoint = .record)
    (found : e.findResource ctx.query = .ok r) (shown : e.ShowsResource ctx r v) : ShowsAnswer e ctx v
  | field {ctx : Context} {r : Resource} {f : Field} {v : Value} (target : ctx.query.endpoint = .field)
    (found : e.findResource ctx.query = .ok r) (named : r.field? (ctx.query.field.getD "") = some f)
    (allowed : canTakeField f "get" ctx e.settings = .ok true) (shown : e.ShowsField ctx r f v) :
    ShowsAnswer e ctx v
  | children {ctx : Context} {children : List (String × Value)} (sub : String → Query)
    (target : ctx.query.endpoint = .server ∨ ctx.query.endpoint = .space)
    (taken : ∀ child ∈ children, ∃ key entry, childEntry ctx.query.take child.1 = some (key, entry) ∧
      ((entry = .flag true ∧ child.2 = .str ("./" ++ child.1 ++ "/")) ∨
        ∃ state, entry = .nested state ∧ childQuery ctx.query key child.1 = .ok (sub child.1)))
    (shown : ∀ child ∈ children, ∀ key state,
      childEntry ctx.query.take child.1 = some (key, .nested state) →
        ShowsAnswer e ⟨sub child.1, ctx.request⟩ child.2) : ShowsAnswer e ctx (.obj children)

/-! Reading -/

/-- What a read renders at the root, and answers with. -/
inductive RendersRoot (e : Engine) (ctx : Context) (endpoint : Endpoint) (r : Resource)
    (fields : List Field) : Value → Prop
  | list {records : List (Option Record)} {rows : List Value} (resource : endpoint = .resource)
    (many : r.singleton = false) (stored : r.source.isSome)
    (rendered : (e.renderRoot ctx r fields records).outcome = .ok rows) :
    RendersRoot e ctx endpoint r fields (.arr rows)
  | one {record : Option Record} {rows : List Value} (single : endpoint ≠ .resource ∨ r.singleton)
    (stored : r.source.isSome)
    (rendered : (e.renderRoot ctx r fields [record]).outcome = .ok rows) :
    RendersRoot e ctx endpoint r fields (rows.headD .null)
  | computed {rows : List Value} (single : r.singleton) (unstored : r.source = none)
    (rendered : (e.renderRoot ctx r (fields.filter fun f => f.source.isComputed) [none]).outcome =
      .ok rows) : RendersRoot e ctx endpoint r fields (rows.headD .null)

theorem getResource_renders {endpoint : Endpoint} {path : Option String} {response : Response}
    (h : (e.getResource ctx endpoint path).outcome = .ok response) :
    ∃ r fields, e.findResource ctx.query = .ok r ∧
      takeFields r "get" Level.root ctx e.settings = .ok fields ∧
      e.RendersRoot ctx endpoint r fields response.data := by
  obtain ⟨o, l, rows, opened, loads, rendered, rfl⟩ := outcome_getResource.mp h
  obtain ⟨found, -, -, taken⟩ := opening_eq_ok.mp opened
  refine ⟨o.resource, o.fields, found, taken, ?_⟩
  cases loads with
  | computed unstored single => exact .computed single unstored rendered
  | list stored planned _ many =>
    obtain ⟨whole, several⟩ := (many_of_plan planned).mp many
    exact .list whole several (by simp [stored]) rendered
  | one stored planned _ many =>
    have single := (many_of_plan planned).not.mp (by simp [many])
    exact .one (by simpa [imp_iff_not_or] using single) (by simp [stored]) rendered

theorem length_render {fuel : Nat} {b : Batch} {rows : List Value}
    (h : (e.render ctx fuel b).outcome = .ok rows) : rows.length = b.records.length := by
  cases fuel with
  | zero => cases h
  | succ fuel =>
    obtain ⟨scope, columns, -, -, rfl⟩ := outcome_render.mp h
    rw [assemble, List.length_map, List.length_range]

/-- The one row that is rendered of one record. -/
theorem eq_singleton_of_renderRoot {fields : List Field} {record : Option Record} {rows : List Value}
    (h : (e.renderRoot ctx r fields [record]).outcome = .ok rows) : rows = [rows.headD .null] := by
  obtain ⟨row, rfl⟩ := List.length_eq_one_iff.mp (length_render h)
  rfl

/-- A resource or a record is answered with objects that have the fields which are selected. -/
theorem showsResource_of_renders (built : e.server.Built) (known : r ∈ e.resources) {fields : List Field}
    {v : Value} (target : ctx.query.endpoint = .resource ∨ ctx.query.endpoint = .record)
    (taken : takeFields r "get" Level.root ctx e.settings = .ok fields)
    (h : e.RendersRoot ctx ctx.query.endpoint r fields v) : e.ShowsResource ctx r v := by
  have field : ctx.query.field.isSome = false := by
    cases hfield : ctx.query.field with
    | none => rfl
    | some name => simp [Query.endpoint, hfield] at target
  have rows {some : List Field} {records : List (Option Record)} {rows : List Value}
      (among : some.Sublist fields)
      (rendered : (e.renderRoot ctx r some records).outcome = .ok rows) :=
    showsRow_render (b := ⟨none, r, some, records, Level.root⟩) built (by simp [field]) known taken among
      rendered
  cases h with
  | list resource many stored rendered =>
    exact .list resource many stored taken (rows (List.Sublist.refl _) rendered)
  | one single stored rendered =>
    have single' : ctx.query.endpoint = .record ∨ r.singleton :=
      single.imp_left fun h => target.resolve_left h
    refine .one single' stored taken (rows (List.Sublist.refl _) rendered _ ?_)
    rw [eq_singleton_of_renderRoot rendered]
    exact List.mem_cons_self
  | computed single unstored rendered =>
    refine .computed single unstored taken (rows List.filter_sublist rendered _ ?_)
    rw [eq_singleton_of_renderRoot rendered]
    exact List.mem_cons_self

/-- Where a targeted field is no relation, it is shown as it is. -/
theorem renderColumn_unlinked {render : Renderer} {b : Batch} {column : List Value}
    (root : (ctx.query.field.isSome && b.level.isEmpty) = true) (unlinked : f.link? = none)
    (h : (e.renderColumn ctx render scope b f).outcome = .ok column) :
    column = b.records.map (e.shown ctx b.resource f) := by
  unfold renderColumn at h
  obtain ⟨values, hvalues, h⟩ := Run.outcome_bind.mp h
  obtain ⟨-, rfl⟩ := (Except.mapM_eq_ok_map Value.null).mp hvalues
  simp only [unlinked, root, if_true] at h
  split at h <;>
    · cases h
      exact List.map_map

/-- A field as the target is answered with its value, or with the objects of its targets. -/
theorem showsField_of_render (built : e.server.Built) (field : ctx.query.field.isSome)
    {record : Option Record} {rows : List Value}
    (h : (e.renderRoot ctx r [f] [record]).outcome = .ok rows) :
    e.ShowsField ctx r f (rows.headD .null) := by
  obtain ⟨fuel, hfuel⟩ := e.levelBound_pos ctx.query
  rw [renderRoot, hfuel] at h
  have root : (ctx.query.field.isSome && Level.root.isEmpty) = true := by simp [field, Level.root]
  obtain ⟨scope, columns, hscope, hcolumns, rfl⟩ := outcome_render.mp h
  obtain ⟨column, _, hcolumn, hnil, rfl⟩ := List.forall₂_cons_left_iff.mp hcolumns
  cases hnil
  have answer : (assemble (ctx.query.field.isSome && Level.root.isEmpty) [f.name] [column] 1).headD .null =
      cell column 0 := by
    rw [root]
    rfl
  have deep : isDeep ctx scope f Level.root = ctx.query.take.isSome := by rw [isDeep, if_pos root]
  change e.ShowsField ctx r f ((assemble _ [f.name] [column] 1).headD .null)
  rw [answer]
  cases hlink : f.link? with
  | none =>
    rw [renderColumn_unlinked root hlink hcolumn]
    exact .plain record (.inr hlink)
  | some link =>
    cases htake : ctx.query.take.isSome with
    | false =>
      obtain ⟨-, rfl⟩ := (renderColumn_flat (deep.trans htake)).mp hcolumn
      exact .plain record (.inl (Option.not_isSome_iff_eq_none.mp (by simp [htake])))
    | true =>
      obtain ⟨t, groups, rendered, ht, hrendered, hcells⟩ :=
        renderColumn_targets (deep.trans htake) hlink hcolumn
      obtain ⟨items, among, hitems⟩ := hcells 0 Nat.zero_lt_one
      obtain ⟨access, entered, settled⟩ := target_eq_ok.mp ht
      have below : (ctx.query.field.isSome && t.level.isEmpty) = false := by
        rw [settled.entered, Level.root, Level.enter, List.nil_append, Level.ofText]
        simp [Text.pieces_ne_nil]
      have rows := showsRow_render (b := t.child f groups) built below
        (mem_resources_of_resolveLink settled.resolved) settled.taken (List.Sublist.refl _) hrendered
      have entered : t.level = Level.root.enter f.name := settled.entered
      rw [hitems]
      exact .followed htake hlink settled.resolved (entered ▸ settled.taken) fun item hitem =>
        entered ▸ rows item (among hitem)

/-- Without its field, the answer to a query for one is null. -/
theorem null_of_render (field : ctx.query.field.isSome) {record : Option Record} {rows : List Value}
    (h : (e.renderRoot ctx r [] [record]).outcome = .ok rows) : rows.headD .null = .null := by
  obtain ⟨fuel, hfuel⟩ := e.levelBound_pos ctx.query
  rw [renderRoot, hfuel] at h
  obtain ⟨scope, columns, -, hcolumns, rfl⟩ := outcome_render.mp h
  cases hcolumns
  have root : (ctx.query.field.isSome && Level.root.isEmpty) = true := by simp [field, Level.root]
  dsimp only
  rw [root]
  rfl

/-- The field that is the target is selected alone, if it is there and may be got. -/
theorem takeFields_targeted {fields : List Field} (field : ctx.query.field.isSome)
    (taken : takeFields r "get" Level.root ctx e.settings = .ok fields) :
    ∃ f, r.field? (ctx.query.field.getD "") = some f ∧
      canTakeField f "get" ctx e.settings = .ok true ∧ fields = [f] := by
  obtain ⟨name, hname⟩ := Option.isSome_iff_exists.mp field
  unfold takeFields at taken
  simp only [hname, Level.root] at taken
  obtain ⟨f, target, rfl⟩ := Except.map_eq_ok.mp taken
  unfold targetField at target
  split at target
  · cases target
  · rename_i found
    obtain ⟨allowed, hallowed, target⟩ := Except.monad_bind_eq_ok.mp target
    cases allowed with
    | false => cases target
    | true =>
      cases target
      exact ⟨f, by simpa [hname] using found, hallowed, rfl⟩

/-- A field of a resource that the requester may get. -/
structure Gettable (e : Engine) (ctx : Context) (r : Resource) (f : Field) : Prop where
  mem : f ∈ r.fields
  allowed : canTakeField f "get" ctx e.settings = .ok true

/-- What is selected may be got. -/
theorem gettable_of_takeFields {fields : List Field}
    (taken : takeFields r "get" level ctx e.settings = .ok fields) (hf : f ∈ fields) :
    e.Gettable ctx r f := by
  have whole := taken
  unfold takeFields at taken
  split at taken
  · rename_i name field
    obtain ⟨only, named, allowed, rfl⟩ := takeFields_targeted (by simp [field]) whole
    rw [List.mem_singleton.mp hf]
    exact ⟨List.mem_of_find?_eq_some named, allowed⟩
  · obtain ⟨scope, -, taken⟩ := Except.monad_bind_eq_ok.mp taken
    obtain ⟨mem, -, allowed⟩ := of_mem_permitted taken hf
    exact ⟨mem, allowed⟩

/-- A read that succeeds shows what is permitted. -/
theorem shows_getResource (built : e.server.Built) {path : Option String} {response : Response}
    (target : ctx.query.endpoint = .resource ∨ ctx.query.endpoint = .record ∨ ctx.query.endpoint = .field)
    (h : (e.getResource ctx ctx.query.endpoint path).outcome = .ok response) :
    e.ShowsAnswer ctx response.data := by
  obtain ⟨r, fields, found, taken, renders⟩ := getResource_renders h
  have known := mem_resources_of_findResource found
  rcases or_assoc.mpr target with target | target
  · exact .resource target found (showsResource_of_renders built known target taken renders)
  · have field : ctx.query.field.isSome := by
      unfold Query.endpoint at target
      split at target
      · assumption
      · split at target <;> [skip; split at target <;> [skip; split at target]] <;> cases target
    obtain ⟨f, named, allowed, rfl⟩ := takeFields_targeted field taken
    refine .field target found named allowed ?_
    generalize response.data = v at renders
    cases renders with
    | list resource => simp [target] at resource
    | one single stored rendered => exact showsField_of_render built field rendered
    | computed single unstored rendered =>
      cases hcomputed : f.source.isComputed with
      | true =>
        simp only [List.filter_cons, hcomputed, if_true, List.filter_nil] at rendered
        exact showsField_of_render built field rendered
      | false =>
        simp only [List.filter_cons, hcomputed, Bool.false_eq_true, if_false, List.filter_nil] at rendered
        rw [null_of_render field rendered]
        exact .absent unstored hcomputed

/-! Children -/

/-- The query of a child targets the child, and nothing below it. -/
theorem childQuery_targets {q sub : Query} {key name : String} (asks : AsksChildren q)
    (h : childQuery q key name = .ok sub) :
    sub.record = none ∧ sub.field = none ∧ sub.space = some (q.space.getD name) ∧
      sub.resource = q.space.map fun _ => name := by
  obtain ⟨hresource, hrecord, hfield⟩ := asks
  unfold childQuery at h
  split at h
  · cases h
  · rename_i below hbelow
    obtain ⟨located, -, rfl⟩ := Option.map_eq_some_iff.mp hbelow
    cases hspace : q.space <;> simp only [hspace, hresource, hrecord, hfield] at h <;> cases h <;> simp

/-- A child is left out, or answered with a link, or as the query that it is taken with. -/
theorem getChild_eq_some {get : Context → Option String → Run Response} {path : Option String}
    {name : String} {answer : Response} (h : (getChild get ctx path name).outcome = .ok (some answer)) :
    ∃ key entry, childEntry ctx.query.take name = some (key, entry) ∧
      ((entry = .flag true ∧ answer.data = .str ("./" ++ name ++ "/")) ∨
        ∃ state sub below, entry = .nested state ∧ childQuery ctx.query key name = .ok sub ∧
          (get ⟨sub, ctx.request⟩ (some below)).outcome = .ok answer) := by
  unfold getChild at h
  rcases hentry : childEntry ctx.query.take name with _ | ⟨key, (_ | _) | state⟩
  · rw [hentry] at h
    cases h
  · rw [hentry] at h
    cases h
  · rw [hentry] at h
    cases h
    exact ⟨key, .flag true, rfl, .inl ⟨rfl, rfl⟩⟩
  · rw [hentry] at h
    obtain ⟨sub, hsub, h⟩ := Run.outcome_bind.mp h
    obtain ⟨response, hresponse, h⟩ := Run.outcome_bind.mp h
    cases h
    exact ⟨key, .nested state, rfl, .inr ⟨state, sub, _, rfl, hsub, hresponse⟩⟩

/-- Children that show what is permitted make up an answer that does. -/
theorem shows_getChildren {get : Context → Option String → Run Response} {path : Option String}
    {names : List String} {response : Response} (asks : AsksChildren ctx.query)
    (own : ∀ key name sub below answer, childQuery ctx.query key name = .ok sub →
      (get ⟨sub, ctx.request⟩ below).outcome = .ok answer → e.ShowsAnswer ⟨sub, ctx.request⟩ answer.data)
    (h : (getChildren get ctx path names).outcome = .ok response) : e.ShowsAnswer ctx response.data := by
  obtain ⟨defined, rfl⟩ := getChildren_eq_ok.mp h
  have answered {child : String × Value} (hchild : child ∈ names.filterMap fun name =>
      ((getChild get ctx path name).outcome.toOption.getD none).map fun answer => (name, answer.data)) :
      ∃ answer, (getChild get ctx path child.1).outcome = .ok (some answer) ∧ child.2 = answer.data := by
    obtain ⟨name, hname, hpart⟩ := List.mem_filterMap.mp hchild
    obtain ⟨answer, hanswer, rfl⟩ := Option.map_eq_some_iff.mp hpart
    obtain ⟨part, hpart⟩ := defined name hname
    rw [hpart] at hanswer
    cases (show part = some answer from hanswer)
    exact ⟨answer, hpart, rfl⟩
  let sub (name : String) : Query :=
    ((childEntry ctx.query.take name).bind fun entry =>
      (childQuery ctx.query entry.1 name).toOption).getD {}
  have sub_eq {name key : String} {entry : Take} {query : Query}
      (hentry : childEntry ctx.query.take name = some (key, entry))
      (hquery : childQuery ctx.query key name = .ok query) : sub name = query := by
    simp [sub, hentry, hquery, Except.toOption]
  refine .children sub (asksChildren_iff.mp asks) (fun child hchild => ?_)
    fun child hchild key state hentry => ?_
  · obtain ⟨answer, hanswer, hdata⟩ := answered hchild
    obtain ⟨key, entry, hentry, ⟨rfl, hlink⟩ | ⟨state, query, below, rfl, hquery, -⟩⟩ :=
      getChild_eq_some hanswer
    · exact ⟨key, _, hentry, .inl ⟨rfl, hdata.trans hlink⟩⟩
    · exact ⟨key, _, hentry, .inr ⟨state, rfl, (sub_eq hentry hquery).symm ▸ hquery⟩⟩
  · obtain ⟨answer, hanswer, hdata⟩ := answered hchild
    obtain ⟨key', entry, hentry', ⟨rfl, -⟩ | ⟨state', query, below, rfl, hquery, hown⟩⟩ :=
      getChild_eq_some hanswer
    · cases hentry.symm.trans hentry'
    · rw [sub_eq hentry' hquery, hdata]
      exact own key' child.1 query (some below) answer hquery hown

/-- Whatever a read of the graph answers, at every depth its objects have the fields that are selected for
their resource and level: the requester may get each of them, and the level neither leaves it out nor
does without it, as with lazy fields that it does not ask for. The answer to a query for a field shows a
field that may be got. -/
theorem execute_shows (e : Engine) (built : e.server.Built) (q : Query) (request : Value)
    (reads : q.action.getD .get = .get) {response : Response}
    (h : (e.execute q request).outcome = .ok response) : e.ShowsAnswer ⟨q, request⟩ response.data := by
  have space {sub : Query} {owner : String} {path : Option String} {answer : Response}
      (asks : AsksChildren sub) (hspace : sub.space = some owner)
      (h : (e.getSpace ⟨sub, request⟩ owner path).outcome = .ok answer) :
      e.ShowsAnswer ⟨sub, request⟩ answer.data := by
    obtain ⟨space, -, h⟩ := Run.outcome_bind.mp h
    refine shows_getChildren asks (fun key name child below answer hchild h => ?_) h
    obtain ⟨hrecord, hfield, -, hresource⟩ := childQuery_targets asks hchild
    have target : child.endpoint = .resource := by
      simp [Query.endpoint, hrecord, hfield, hresource, hspace]
    exact shows_getResource built (.inl target) (target ▸ h)
  cases htarget : q.endpoint with
  | resource | record | field =>
    rw [execute_reads request reads (by simp [htarget])] at h
    exact shows_getResource built (by simp [htarget]) h
  | space =>
    have asks : AsksChildren q := asksChildren_iff.mpr (.inr htarget)
    obtain ⟨owner, hspace⟩ : ∃ owner, q.space = some owner := by
      obtain ⟨hresource, hrecord, hfield⟩ := asks
      rw [← Option.isSome_iff_exists]
      by_contra hnone
      simp [Query.endpoint, hresource, hrecord, hfield, hnone] at htarget
    rw [execute_getSpace reads asks hspace] at h
    exact space asks hspace h
  | server =>
    have asks : AsksChildren q := asksChildren_iff.mpr (.inl htarget)
    have read : e.execute q request = e.getServer ⟨q, request⟩ := by
      unfold execute get
      simp [reads, htarget]
    rw [read] at h
    refine shows_getChildren asks (fun key name child below answer hchild h => ?_) h
    obtain ⟨hrecord, hfield, hspace, hresource⟩ := childQuery_targets asks hchild
    rw [space_of_server htarget] at hresource
    dsimp only at h
    rw [hspace] at h
    exact space ⟨hresource, hrecord, hfield⟩ hspace h

end Engine

/-! Letters with their senders -/

namespace Archive

def config : ServerConfig where
  spaces := [("archive", { resources := [
    ("letter", {
      source := some "letters"
      fields := [
        ("id", { isLazy := true }),
        ("note", { can := some [("get", .bool false)] }),
        ("sender", { type := some (.str "@person") }),
        ("text", {})] }),
    ("person", { source := some "people", fields := [("name", {})] })] })]

def archive : Engine where
  server := .declared config
  store := [
    ("letters", [[("id", .str "1"), ("note", .str "?"), ("sender", .str "p"), ("text", .str "Dear")]]),
    ("people", [[("id", .str "p"), ("name", .str "Emma")]])]
  settings := {}

theorem built : archive.server.Built := by
  have distinct : config.Distinct := by
    simp only [ServerConfig.Distinct, config, List.forall_mem_cons]
    decide
  exact Server.built_declared distinct (by decide +kernel)

/-- The letters, with something taken of them. -/
def lettersWith (entries : List (String × Take)) : Query where
  space := some "archive"
  resource := some "letter"
  take := some entries

/-- The keys of the rows of a list. -/
def keys (response : Response) : List (List String) :=
  (response.data.arr?.getD []).map fun row => Entries.keys (row.obj?.getD [])

end Archive

/-- Letters are shown with their senders, but without the note, which nobody may get. -/
theorem Engine.execute_shows_letters :
    let q := Archive.lettersWith [("note", .flag true), ("sender", .nested {}), ("text", .flag true)]
    ∃ response, (Archive.archive.execute q .null).outcome = .ok response ∧
      Archive.keys response = [["id", "sender", "text"]] ∧
      Archive.archive.ShowsAnswer ⟨q, .null⟩ response.data := by
  intro q
  have keys : (Archive.archive.execute q .null).outcome.toOption.map Archive.keys =
      some [["id", "sender", "text"]] := by decide +kernel
  obtain ⟨response, h, hkeys⟩ := Option.map_eq_some_iff.mp keys
  have answered := Except.toOption_eq_some.mp h
  exact ⟨response, answered, hkeys, Engine.execute_shows Archive.archive Archive.built q .null rfl answered⟩

/-- The id of letters is lazy, and neither named nor under a star; still it is shown beside the text. -/
theorem Engine.execute_shows_lazy :
    let q := Archive.lettersWith [("text", .flag true)]
    (∃ r, Archive.archive.findResource q = .ok r ∧ r.idField?.map Field.isLazy = some true) ∧
      Entries.get? (q.take.getD []) "id" = none ∧ Entries.get? (q.take.getD []) "*" = none ∧
      (Archive.archive.execute q .null).outcome.toOption.map Archive.keys = some [["id", "text"]] := by
  intro q
  have lazy : (Archive.archive.findResource q).toOption.bind (fun r => r.idField?.map Field.isLazy) =
      some true := by decide +kernel
  obtain ⟨r, found, hlazy⟩ := Option.bind_eq_some_iff.mp lazy
  exact ⟨⟨r, Except.toOption_eq_some.mp found, hlazy⟩, rfl, rfl, by decide +kernel⟩

end RecordGraph
