import RecordGraph.Proofs.Run.Twins
import RecordGraph.Proofs.Run.Visible

/-!
Relations find what they link to. Ids are stored at paths, and the store looks for them under keys: where
both are the same, a record gets the targets whose ids it holds, or those that hold its own id, and no
others. A path of several segments is no key of a record, and what is stored there is not found.
-/
namespace RecordGraph

/-- What is related to a list is dealt out as the parts of this list are. -/
theorem forall₂_deal {α β : Type} {R : α → β → Prop} {groups : List (List α)} {xs : List β}
    (h : List.Forall₂ R groups.flatten xs) :
    List.Forall₂ (List.Forall₂ R) groups (deal (groups.map List.length) xs) := by
  induction groups generalizing xs with
  | nil => exact .nil
  | cons group groups ih =>
    rw [List.flatten_cons] at h
    have first := List.forall₂_take_append xs group groups.flatten h.flip
    have rest := List.forall₂_drop_append xs group groups.flatten h.flip
    exact .cons first.flip (ih rest.flip)

/-! Ids at paths -/

/-- A value is an id, or a list that contains it. -/
def Value.holdsId (v : Value) (id : String) : Bool :=
  match v with
  | .arr ids => ids.any fun x => idText x == id
  | v => idText v == id

/-- The text of the id that is stored at a path. -/
def Record.idRead (key : String) (record : Record) : Option String := (record.read key).map idText

/-- Every record has an id at a path, with a text of its own. -/
structure Identified (key : String) (records : List Record) : Prop where
  held : ∀ record ∈ records, (record.read key).isSome
  distinct : (records.map (Record.idRead key)).Nodup

/-- What records hold at a path is what they hold under it as a key. -/
def Keys (key : String) (records : List Record) : Prop :=
  ∀ record ∈ records, record.get? key = record.read key

theorem keys_of_undotted {key : String} (undotted : '.' ∉ key.toList) (records : List Record) :
    Keys key records := fun _ _ => (Record.read_segment undotted).symm

/-- No record holds anything under a path as a key. -/
def Unkeyed (key : String) (records : List Record) : Prop := ∀ record ∈ records, record.get? key = none

namespace Keys
variable {key id : String} {records : List Record} (keys : Keys key records)
include keys

theorem hasId {record : Record} (hrecord : record ∈ records) :
    Store.hasId key id record = (record.idRead key).any (· == id) := by
  rw [Store.hasId, keys record hrecord, Record.idRead, Option.any_map]

/-- A record is found by its id. -/
theorem find?_hasId (identified : Identified key records) {record : Record} :
    records.find? (Store.hasId key id) = some record ↔ record ∈ records ∧ record.idRead key = some id := by
  have iff {a : Record} (ha : a ∈ records) : Store.hasId key id a = true ↔ a.idRead key = some id := by
    rw [keys.hasId ha]
    cases a.idRead key <;> simp
  rw [List.find?_eq_some_of_unique]
  · exact and_congr_right iff
  · intro a ha b hb hpa hpb
    exact List.inj_on_of_nodup_map identified.distinct ha hb
      (((iff ha).mp hpa).trans ((iff hb).mp hpb).symm)

/-- A list of ids is linked to the records with an id that it contains. -/
theorem mem_linked (identified : Identified key records) {ids : List Value} {record : Record} :
    record ∈ Store.linked key records (.arr ids) ↔
      record ∈ records ∧ (record.idRead key).any (Value.arr ids).holdsId := by
  simp only [Store.linked, List.mem_filterMap, keys.find?_hasId identified]
  constructor
  · rintro ⟨id, hid, hrecord, htext⟩
    refine ⟨hrecord, ?_⟩
    rw [htext, Option.any_some, Value.holdsId, List.any_eq_true]
    exact ⟨id, hid, beq_self_eq_true _⟩
  · rintro ⟨hrecord, holds⟩
    obtain ⟨text, htext, holds⟩ := (Option.any_eq_true _ _).mp holds
    rw [Value.holdsId, List.any_eq_true] at holds
    obtain ⟨id, hid, same⟩ := holds
    exact ⟨id, hid, hrecord, htext.trans (congrArg some (beq_iff_eq.mp same).symm)⟩

/-- An id on its own is linked to the records with it. -/
theorem linked_eq_filter {v : Value} (single : ∀ ids, v ≠ .arr ids) :
    Store.linked key records v = records.filter fun record => (record.idRead key).any v.holdsId := by
  have own (record : Record) (hrecord : record ∈ records) :
      Store.hasId key (idText v) record = (record.idRead key).any (idText v == ·) := by
    rw [keys.hasId hrecord]
    exact congrArg (fun p => Option.any p _) (funext fun text => Bool.beq_comm)
  cases v with
  | arr ids => exact absurd rfl (single ids)
  | null | bool _ | num _ | str _ | obj _ => exact List.filter_congr own

/-- A record points back at those whose ids it holds. -/
theorem pointsBack {record : Record} (hrecord : record ∈ records) :
    Store.pointsBack key id record = (record.read key).any (·.holdsId id) := by
  rw [Store.pointsBack, keys record hrecord]
  cases record.read key with
  | none => rfl
  | some v => cases v <;> rfl

end Keys

namespace Unkeyed
variable {key id : String} {records : List Record} (unkeyed : Unkeyed key records)
include unkeyed

theorem find?_hasId : records.find? (Store.hasId key id) = none :=
  List.find?_eq_none.mpr fun record hrecord => by simp [Store.hasId, unkeyed record hrecord]

theorem linked (v : Value) : Store.linked key records v = [] := by
  have none (id : String) (record : Record) (hrecord : record ∈ records) :
      ¬Store.hasId key id record = true := by
    simp [Store.hasId, unkeyed record hrecord]
  cases v with
  | arr ids =>
    rw [Store.linked, List.filterMap_eq_nil_iff]
    exact fun id _ => unkeyed.find?_hasId
  | _ => exact List.filter_eq_nil_iff.mpr (none _)

theorem pointsBack : records.filter (Store.pointsBack key id) = [] :=
  List.filter_eq_nil_iff.mpr fun record hrecord => by simp [Store.pointsBack, unkeyed record hrecord]

end Unkeyed

/-! What a relation links to -/

namespace Relation
variable (relation : Relation) {parents targets : List Record} {parent target : Record} {id : String}

/-- What a record holds at the path of a relation. -/
def held? (parent : Record) : Option Value := (parent.read relation.field).filter fun v => !v.isNull

/-- A record links to the targets whose ids it holds at the path of the relation; where it holds nothing
there, to those that hold its own id at the path of the inverse. -/
def links (parent target : Record) : Bool :=
  match relation.held? parent with
  | some v => (target.idRead relation.targetKey).any v.holdsId
  | none => (relation.inverse.bind target.read).any fun v =>
      (parent.idRead relation.parentKey).any v.holdsId

/-- How long a list of links is: as long as that of the ids which a record holds, or as many as there are
targets that it links to. -/
def linkCount (targets : List Record) (parent : Record) : Nat :=
  match relation.held? parent with
  | some (.arr ids) => ids.length
  | _ => (targets.filter (relation.links parent)).length

/-- All ids of a relation are found under the keys of its records. -/
structure IsKeyed (parents targets : List Record) : Prop where
  parent : Keys relation.parentKey parents
  target : Keys relation.targetKey targets
  inverse : ∀ inverse, relation.inverse = some inverse → Keys inverse targets

/-- The ids of a relation are found under no key: those of the inverse, if there is one, and those of the
parents or of the targets, unless no parent holds any. -/
structure IsUnkeyed (parents targets : List Record) : Prop where
  inverse : ∀ inverse, relation.inverse = some inverse → Unkeyed inverse targets
  stored : Unkeyed relation.parentKey parents ∨ Unkeyed relation.targetKey targets ∨
    ∀ parent ∈ parents, relation.held? parent = none

variable {relation}

/-- Paths of one segment are keys. -/
theorem isKeyed_of_undotted (parents targets : List Record) (parentKey : '.' ∉ relation.parentKey.toList)
    (targetKey : '.' ∉ relation.targetKey.toList)
    (inverse : ∀ inverse, relation.inverse = some inverse → '.' ∉ inverse.toList) :
    relation.IsKeyed parents targets :=
  ⟨keys_of_undotted parentKey _, keys_of_undotted targetKey _,
    fun key h => keys_of_undotted (inverse key h) _⟩

section keyed
variable (keyed : relation.IsKeyed parents targets) (identified : Identified relation.parentKey parents)
  (hparent : parent ∈ parents) (hid : parent.idRead relation.parentKey = some id)
include keyed identified hparent hid

theorem candidates_eq : Store.candidates relation parents targets id =
    match relation.held? parent with
    | some (.arr ids) => Store.linked relation.targetKey targets (.arr ids)
    | _ => targets.filter (relation.links parent) := by
  have found := (keyed.parent.find?_hasId identified).mpr ⟨hparent, hid⟩
  have held : (parent.read relation.field).filter (fun v => !v.isNull) = relation.held? parent := rfl
  unfold Store.candidates
  rw [found, Option.bind_some, held]
  unfold links
  cases relation.held? parent with
  | some v =>
    cases v with
    | arr ids => rfl
    | null | bool _ | num _ | str _ | obj _ => exact keyed.target.linked_eq_filter (by simp)
  | none =>
    cases hinverse : relation.inverse with
    | none => simp
    | some inverse =>
      refine List.filter_congr fun target htarget => ?_
      rw [(keyed.inverse inverse hinverse).pointsBack htarget, hid]
      rfl

/-- The targets of a parent are those that it links to. -/
theorem mem_candidates (identifiedTargets : Identified relation.targetKey targets) :
    target ∈ Store.candidates relation parents targets id ↔
      target ∈ targets ∧ relation.links parent target := by
  rw [candidates_eq keyed identified hparent hid]
  split
  · rename_i ids held
    rw [keyed.target.mem_linked identifiedTargets, links, held]
  · exact List.mem_filter

theorem length_candidates : (Store.candidates relation parents targets id).length ≤
    relation.linkCount targets parent := by
  rw [candidates_eq keyed identified hparent hid, linkCount]
  split
  · exact List.length_filterMap_le ..
  · exact Nat.le_refl _

end keyed

/-- Nothing is found of what is held under no key. -/
theorem candidates_eq_nil (unkeyed : relation.IsUnkeyed parents targets) :
    Store.candidates relation parents targets id = [] := by
  unfold Store.candidates
  cases stored : ((parents.find? (Store.hasId relation.parentKey id)).bind fun r =>
      r.read relation.field).filter fun v => !v.isNull with
  | none =>
    cases hinverse : relation.inverse with
    | none => rfl
    | some inverse => exact (unkeyed.inverse inverse hinverse).pointsBack
  | some v =>
    cases found : parents.find? (Store.hasId relation.parentKey id) with
    | none => simp [found] at stored
    | some parent =>
      have held : relation.held? parent = some v := by
        rw [found] at stored
        exact stored
      rcases unkeyed.stored with parentKey | targetKey | nothing
      · rw [parentKey.find?_hasId] at found
        cases found
      · exact targetKey.linked v
      · rw [nothing parent (List.mem_of_find?_eq_some found)] at held
        cases held

end Relation

/-! Loading and rendering -/

namespace Engine
variable {e : Engine} {ctx : Context} {r : Resource} {f g : Field} {t : Target} {scope : Scope}
  {source path link : String}

/-- How a stored relation connects the records of a resource to those of its target. -/
def relationOf (r : Resource) (f : Field) (t : Target) (source path : String) : Relation :=
  (relatedRequest r f t source path []).relation

/-- The targets that a relation finds for a record and that its level admits, in their order. -/
def Target.related (t : Target) (e : Engine) (r : Resource) (f : Field) (source path : String)
    (parent : Record) : List Record :=
  sortRecords t.sort ((Store.candidates (relationOf r f t source path) (e.store.records source)
    (t.stored e) (parentText r (some parent))).filter t.admits)

/-- The targets that a list relation shows for a record, as many as a page holds. -/
def Target.linkedTo (t : Target) (e : Engine) (r : Resource) (f : Field) (source path : String)
    (parent : Record) : List Record :=
  (t.related e r f source path parent).take t.size.toNat

/-- A row shows what the fields of its batch show of a record, where no relation is followed. -/
def ShowsFlat (e : Engine) (ctx : Context) (b : Batch) (record : Option Record) (row : Value) : Prop :=
  ∀ g ∈ b.fields, ∀ scope, ctx.query.scope b.level = .ok scope → isDeep ctx scope g b.level = false →
    row.get? g.name = some (e.shown ctx b.resource g record)

section loads
variable (list : f.isList = true)
  (decides : ∀ target ∈ t.stored e, ∃ keep, Store.isMatch (conjoin t.predicates) target = .ok keep)
  (known : (∃ rs, e.store.collection source = .ok rs) ∧ ∃ rs, e.store.collection t.source = .ok rs)
include list decides

theorem linkedTargets_eq (parent : Record) : e.linkedTargets r f t source path (some parent) =
    .ok (Store.window 0 (some (Window.oneMore t.size)) (t.related e r f source path parent)) := by
  have request : relatedRequest r f t source path [] =
      { relation := relationOf r f t source path, parents := [], predicate := conjoin t.predicates
        sort := t.sort, offset := 0, limit := some (Window.oneMore t.size) } := by
    simp [relationOf, relatedRequest, list]
  have decided : ∀ target ∈ Store.candidates (relationOf r f t source path) (e.store.records source)
      (t.stored e) (parentText r (some parent)),
      ∃ keep, Store.isMatch (conjoin t.predicates) target = .ok keep :=
    fun target htarget => decides target (Store.mem_of_mem_candidates htarget)
  have selected := Store.select_eq_ok.mpr ⟨decided, rfl⟩
  rw [linkedTargets, request, Store.targetsOf]
  change (Store.select (conjoin t.predicates) (Store.candidates (relationOf r f t source path)
    (e.store.records source) (t.stored e) (parentText r (some parent)))).map _ = _
  rw [selected]
  rfl

include known

/-- The targets of all records are loaded, whatever they are. -/
theorem loadStored_linked (records : List Record) :
    ∃ groups, (e.loadStored r f t source path (records.map some)).outcome = .ok groups ∧
      t.kept f groups = records.map (t.linkedTo e r f source path) := by
  refine ⟨_, (loadStored_eq_ok e r f t source path).mpr ⟨known, ?_, rfl⟩, ?_⟩
  · rw [List.forall_mem_map]
    exact fun parent _ => ⟨_, linkedTargets_eq list decides parent⟩
  · have window : ((records.map some).map fun record =>
        (e.linkedTargets r f t source path record).toOption.getD []) =
        records.map fun parent =>
          Store.window 0 (some (Window.oneMore t.size)) (t.related e r f source path parent) := by
      rw [List.map_map]
      refine List.map_congr_left fun parent _ => ?_
      rw [Function.comp_apply, linkedTargets_eq list decides]
      rfl
    rw [window, kept_window list, Target.kept, list, List.map_map]
    rfl

end loads

/-- Each row shows its record. -/
theorem showsFlat_render {fuel : Nat} {b : Batch} {rows : List Value}
    (distinct : (b.fields.map Field.name).Nodup)
    (below : (ctx.query.field.isSome && b.level.isEmpty) = false)
    (h : (e.render ctx fuel b).outcome = .ok rows) :
    List.Forall₂ (e.ShowsFlat ctx b) b.records rows := by
  have length := length_render h
  cases fuel with
  | zero => cases h
  | succ fuel =>
    obtain ⟨scope, columns, hscope, hcolumns, rfl⟩ := outcome_render.mp h
    refine List.forall₂_iff_get.mpr ⟨length.symm, fun i hi hi' g hg scope' hscope' flat => ?_⟩
    cases hscope.symm.trans hscope'
    obtain ⟨column, hcolumn, hget⟩ := get?_cells distinct hcolumns hg
    obtain ⟨-, rfl⟩ := (renderColumn_flat flat).mp hcolumn
    have value : cell (b.records.map (e.shown ctx b.resource g)) i =
        e.shown ctx b.resource g (b.records.get ⟨i, hi⟩) := by
      simp [cell, List.getElem?_eq_getElem hi]
    rw [← value, ← hget i, List.get_eq_getElem]
    simp only [assemble, below, List.getElem_map, List.getElem_range]
    rfl

section rendered
variable {b : Batch} {records : List Record} (list : f.isList = true) (linked : f.link? = some link)
  (stored : f.source = .path path) (kept : b.resource.source = some source)
  (deep : isDeep ctx scope f b.level = true) (rows : b.records = records.map some)
  (ht : e.target ctx b.resource f link b.level = .ok t)
  (decides : ∀ target ∈ t.stored e, ∃ keep, Store.isMatch (conjoin t.predicates) target = .ok keep)
  (known : (∃ rs, e.store.collection source = .ok rs) ∧ ∃ rs, e.store.collection t.source = .ok rs)
include list linked stored kept deep rows ht decides known

/-- A list relation is rendered as its targets are, each record with its own. -/
theorem outcome_renderColumn_linked (render : Renderer) :
    (e.renderColumn ctx render scope b f).outcome =
      (render ⟨some f, t.resource, t.fields,
        (records.map (t.linkedTo e b.resource f source path)).flatten.map some, t.level⟩).outcome.map
      fun items => (deal ((records.map (t.linkedTo e b.resource f source path)).map List.length)
        items).map Value.arr := by
  obtain ⟨groups, loaded, hgroups⟩ := @loadStored_linked e b.resource f t source path list decides known
    records
  have defined : ∀ record ∈ b.records, ∃ v, fieldValue ctx b.resource f record = .ok v := by
    rw [rows, List.forall_mem_map]
    exact fun record _ => fieldValue_stored (by simp [FieldSource.storagePath?, stored]) ctx record
  have values := (Except.mapM_eq_ok_map Value.null).mpr ⟨defined, rfl⟩
  generalize (b.records.map fun record => (fieldValue ctx b.resource f record).toOption.getD .null) =
    held at values
  have loads : (e.loadTargets b.resource f t b.records held).outcome = .ok groups := by
    rw [loadTargets, stored, kept, rows]
    exact loaded
  unfold renderColumn
  rw [Run.outcome_bind_ok values]
  simp only [deep, Bool.not_true, Bool.false_eq_true, if_false, linked]
  unfold renderRelated
  rw [Run.outcome_bind_ok ht, Run.outcome_bind_ok loads, Run.outcome_map, ← hgroups]
  simp only [Target.kept, list, if_true]

end rendered

theorem idRead_eq_parentText {records : List Record} (identified : Identified r.idKey records)
    {record : Record} (hrecord : record ∈ records) :
    record.idRead r.idKey = some (parentText r (some record)) := by
  obtain ⟨v, hv⟩ := Option.isSome_iff_exists.mp (identified.held record hrecord)
  rw [Record.idRead, parentText, Option.bind_some, hv]
  rfl

/-- Where the ids of a relation are found under their keys, a list that fits on a page holds the targets
that its record links to, as far as the level admits them. -/
theorem Target.mem_linkedTo (parents : Identified r.idKey (e.store.records source))
    (targets : Identified t.resource.idKey (t.stored e))
    (keyed : (relationOf r f t source path).IsKeyed (e.store.records source) (t.stored e))
    {parent : Record} (hparent : parent ∈ e.store.records source)
    (size : (relationOf r f t source path).linkCount (t.stored e) parent ≤ t.size.toNat)
    {target : Record} : target ∈ t.linkedTo e r f source path parent ↔ target ∈ t.stored e ∧
      (relationOf r f t source path).links parent target ∧ t.admits target := by
  have id := idRead_eq_parentText parents hparent
  have short := Relation.length_candidates keyed parents hparent id
  have fits : (t.related e r f source path parent).length ≤ t.size.toNat :=
    (perm_sortRecords _ _).length_eq.trans_le
      ((List.length_filter_le t.admits _).trans (short.trans size))
  rw [Target.linkedTo, List.take_of_length_le fits, Target.related, mem_sortRecords, List.mem_filter,
    Relation.mem_candidates keyed parents hparent id targets, and_assoc]

/-- Where they are found under no key, a list is empty. -/
theorem Target.linkedTo_eq_nil
    (unkeyed : (relationOf r f t source path).IsUnkeyed (e.store.records source) (t.stored e))
    (parent : Record) : t.linkedTo e r f source path parent = [] := by
  rw [Target.linkedTo, Target.related, Relation.candidates_eq_nil unkeyed]
  simp [sortRecords]

/-- A stored list relation is rendered with a list of targets for each record. Where the ids of the
relation are found under their keys, as those at paths of one segment always are, the list of a record
holds the targets that the record links to and that its level admits; where they are found under no key,
it is empty. The relation fails only if its targets cannot be rendered, and shows each of them in the
list that it is in. -/
theorem renderColumn_linked (e : Engine) (ctx : Context) (fuel : Nat) {b : Batch} {records : List Record}
    (list : f.isList = true) (linked : f.link? = some link) (stored : f.source = .path path)
    (kept : b.resource.source = some source) (deep : isDeep ctx scope f b.level = true)
    (rows : b.records = records.map some) (sub : records ⊆ e.store.records source)
    (ht : e.target ctx b.resource f link b.level = .ok t)
    (distinct : (t.resource.fields.map Field.name).Nodup)
    (decides : ∀ target ∈ t.stored e, ∃ keep, Store.isMatch (conjoin t.predicates) target = .ok keep)
    (known : (∃ rs, e.store.collection source = .ok rs) ∧ ∃ rs, e.store.collection t.source = .ok rs)
    (parents : Identified b.resource.idKey (e.store.records source))
    (targets : Identified t.resource.idKey (t.stored e))
    (size : ∀ parent ∈ records,
      (relationOf b.resource f t source path).linkCount (t.stored e) parent ≤ t.size.toNat) :
    let relation := relationOf b.resource f t source path
    ∃ groups : List (List Record),
      List.Forall₂ (fun parent group =>
        (relation.IsKeyed (e.store.records source) (t.stored e) → ∀ target, target ∈ group ↔
          target ∈ t.stored e ∧ relation.links parent target ∧ t.admits target) ∧
        (relation.IsUnkeyed (e.store.records source) (t.stored e) → group = [])) records groups ∧
      let child : Batch := ⟨some f, t.resource, t.fields, groups.flatten.map some, t.level⟩
      (e.renderColumn ctx (e.render ctx fuel) scope b f).outcome = (e.render ctx fuel child).outcome.map
        (fun items => (deal (groups.map List.length) items).map Value.arr) ∧
      ∀ column, (e.renderColumn ctx (e.render ctx fuel) scope b f).outcome = .ok column →
        List.Forall₂ (fun group value => ∃ items, value = .arr items ∧
          List.Forall₂ (fun target item => e.ShowsFlat ctx child (some target) item) group items)
          groups column := by
  intro relation
  obtain ⟨access, entered, settled⟩ := target_eq_ok.mp ht
  have below : (ctx.query.field.isSome && t.level.isEmpty) = false := by
    have nonempty : t.level.isEmpty = false := by
      rw [settled.entered]
      simp [Level.enter, Level.ofText, Text.pieces_ne_nil]
    rw [nonempty, Bool.and_false]
  have names : (t.fields.map Field.name).Nodup := by
    have taken := settled.taken
    rw [takeFields_scope below settled.governed] at taken
    exact distinct.sublist ((permitted_sublist taken).map Field.name)
  have whole := outcome_renderColumn_linked list linked stored kept deep rows ht decides known
    (e.render ctx fuel)
  refine ⟨records.map (t.linkedTo e b.resource f source path), ?_, whole, fun column hcolumn => ?_⟩
  · rw [List.forall₂_map_right_iff, List.forall₂_same]
    exact fun parent hparent => ⟨fun keyed target => Target.mem_linkedTo parents targets keyed
      (sub hparent) (size parent hparent), fun unkeyed => Target.linkedTo_eq_nil unkeyed parent⟩
  · rw [whole] at hcolumn
    obtain ⟨items, hitems, rfl⟩ := Except.map_eq_ok.mp hcolumn
    have shows := showsFlat_render names below hitems
    rw [List.forall₂_map_left_iff] at shows
    rw [List.forall₂_map_right_iff]
    exact (forall₂_deal shows).imp fun group part hpart => ⟨part, rfl, hpart⟩

end Engine
/-! Books under their ids -/

namespace Shelf

/-- Readers who want books that are known by what is stored at `key`. -/
def wantingAt (key : String) (books : List Record) : Engine where
  server := { spaces := [("library", ⟨"library", [("book", catalogued key), ("reader", wisher)]⟩)] }
  store := [("books", books), ("readers", [wanting [.str "a"]])]
  settings := {}

/-- The wanted books, with all that is shown of them. -/
def wantedBooks (key : String) : Engine.Target where
  resource := catalogued key
  level := ["wants"]
  fields := (catalogued key).fields
  size := ({} : Settings).pageSize
  predicates := []
  sort := []
  source := "books"

theorem target_wants (key : String) (books : List Record) :
    (wantingAt key books).target (wish {}) wisher wants "book" Level.root = .ok (wantedBooks key) := by
  rfl

/-- A book that keeps its id beside its title. -/
def bound : Record := [("meta", .obj [("id", .str "a"), ("title", .str "Emma")])]

end Shelf

/-- A reader gets the wanted book, which shows its id. -/
theorem Engine.renderColumn_linked_wants :
    let e := Shelf.wantingAt "id" Shelf.novels
    let ctx := Shelf.wish {}
    ∃ items item, (e.renderColumn ctx (e.render ctx 1) (.state ctx.query) (Shelf.wishers [.str "a"])
        Shelf.wants).outcome = .ok [.arr items] ∧ item ∈ items ∧ item.get? "id" = some (.str "a") := by
  intro e ctx
  let b := Shelf.wishers [.str "a"]
  have linked : Shelf.wants.link? = some "book" := rfl
  have stored : Shelf.wants.source = .path "wants" := rfl
  have kept : b.resource.source = some "readers" := rfl
  have deep : isDeep ctx (.state ctx.query) Shelf.wants b.level = true := rfl
  have rows : b.records = [Shelf.wanting [.str "a"]].map some := rfl
  obtain ⟨groups, finds, -, shows⟩ := renderColumn_linked e ctx 1 (by decide) linked stored kept deep rows
    (List.Subset.refl _) (Shelf.target_wants "id" Shelf.novels) (by decide) (fun target _ => ⟨true, rfl⟩)
    ⟨⟨_, rfl⟩, _, rfl⟩ ⟨by decide, by decide⟩ ⟨by decide, by decide⟩ (by decide)
  have rendered : (e.renderColumn ctx (e.render ctx 1) (.state ctx.query) b
      Shelf.wants).outcome.toOption.isSome := by decide +kernel
  obtain ⟨column, hcolumn⟩ := Option.isSome_iff_exists.mp rendered
  have hcolumn := Except.toOption_eq_some.mp hcolumn
  have shows := shows column hcolumn
  obtain ⟨group, _, ⟨keyed, -⟩, hnil, rfl⟩ := List.forall₂_cons_left_iff.mp finds
  cases hnil
  obtain ⟨_, _, ⟨items, rfl, hitems⟩, hnil, rfl⟩ := List.forall₂_cons_left_iff.mp shows
  cases hnil
  have found : Shelf.titled (.str "a") (.str "Emma") ∈ group :=
    (keyed (Relation.isKeyed_of_undotted _ _ (by decide) (by decide) (by rintro _ ⟨⟩)) _).mpr
      ⟨List.mem_cons_self, by decide, rfl⟩
  obtain ⟨item, hitem, flat⟩ := hitems.flip.exists_left found
  have shown := flat _ (List.mem_cons_self) (.state {}) rfl rfl
  exact ⟨items, item, hcolumn, hitem, shown⟩

/-- A book whose id is stored at a path of two segments is not found, although a reader holds this id. -/
theorem Engine.renderColumn_linked_bound :
    let e := Shelf.wantingAt "meta.id" [Shelf.bound]
    let ctx := Shelf.wish {}
    let relation := relationOf Shelf.wisher Shelf.wants (Shelf.wantedBooks "meta.id") "readers" "wants"
    e.target ctx Shelf.wisher Shelf.wants "book" Level.root = .ok (Shelf.wantedBooks "meta.id") ∧
      Identified Shelf.wisher.idKey (e.store.records "readers") ∧
      Identified (Shelf.wantedBooks "meta.id").resource.idKey (e.store.records "books") ∧
      relation.links (Shelf.wanting [.str "a"]) Shelf.bound = true ∧
      relation.linkCount (e.store.records "books") (Shelf.wanting [.str "a"]) = 1 ∧
      (e.renderColumn ctx (e.render ctx 1) (.state ctx.query) (Shelf.wishers [.str "a"])
        Shelf.wants).outcome = .ok [.arr []] :=
  ⟨rfl, ⟨by decide, by decide⟩, ⟨by decide, by decide⟩, by decide, by decide, rfl⟩

end RecordGraph
