import Mathlib.Data.List.Find
import Mathlib.Data.List.Induction
import RecordGraph.Proofs.Predicate.Substitution
import RecordGraph.Proofs.Run.Record
import RecordGraph.Proofs.Run.Render
import RecordGraph.Proofs.Store.Sorting
import RecordGraph.Proofs.Value.Numbers

/-!
Loading the targets of many records at once. Each record gets the targets it would get alone, if the
ids of a computed relation are of one kind and the key of the targets means the same in a predicate as
in a record.
-/
namespace RecordGraph

/-- Over items of `domain`, a run gives each item a value of its own, whatever the others are. -/
def Pointwise {α β : Type} (domain : List α) (run : List α → Run (List β)) (value : α → β) : Prop :=
  ∃ (settled : Prop) (defined : α → Prop), ∀ xs, xs ⊆ domain → ∀ ys,
    (run xs).outcome = .ok ys ↔ settled ∧ (∀ x ∈ xs, defined x) ∧ ys = xs.map value

/-! Identifiers -/

/-- Identifiers that are all texts or all integers. -/
def UniformIds (ids : List Value) : Prop :=
  (∀ id ∈ ids, ∃ s, id = .str s) ∨ ∀ id ∈ ids, ∃ i h, id = .num (.int i h)

theorem concat_distinctIds (ids : List Value) (id : Value) :
    distinctIds (ids ++ [id]) = if (distinctIds ids).any fun s => idText s == idText id
      then distinctIds ids else distinctIds ids ++ [id] := by
  rw [distinctIds, List.foldl_concat]
  rfl

theorem mem_of_mem_distinctIds {ids : List Value} {id : Value} (h : id ∈ distinctIds ids) : id ∈ ids := by
  induction ids using List.reverseRecOn with
  | nil => exact h
  | append_singleton ids last ih =>
    rw [concat_distinctIds] at h
    split at h
    · exact List.mem_append_left _ (ih h)
    · exact (List.mem_append.mp h).elim (fun h => List.mem_append_left _ (ih h)) (List.mem_append_right _)

/-- Every text of an id is kept once. -/
theorem exists_mem_distinctIds {ids : List Value} {id : Value} (h : id ∈ ids) :
    ∃ kept ∈ distinctIds ids, idText kept = idText id := by
  induction ids using List.reverseRecOn with
  | nil => cases h
  | append_singleton ids last ih =>
    rw [concat_distinctIds]
    split
    · rename_i hany
      rcases List.mem_append.mp h with h | h
      · exact ih h
      · rw [List.mem_singleton.mp h]
        simpa using hany
    · rcases List.mem_append.mp h with h | h
      · obtain ⟨kept, hkept, htext⟩ := ih h
        exact ⟨kept, List.mem_append_left _ hkept, htext⟩
      · exact ⟨last, List.mem_append_right _ List.mem_cons_self, by rw [List.mem_singleton.mp h]⟩

/-- Some id of a list is the value that the key of a record refers to. -/
def hits (key : String) (ids : List Value) (record : Record) : Bool :=
  ids.any fun id => Expr.equal id (record.refer key)

namespace UniformIds
variable {ids : List Value}

theorem eval_makeLiteral (h : UniformIds ids) (c : Value) :
    Expr.eval c (Expr.makeLiteral (.arr ids)) = .ok (.arr ids) := by
  have literal : ∀ id ∈ ids, Expr.isLiteral (Expr.makeLiteral id) ∧
      Expr.unliteral (Expr.makeLiteral id) = id := by
    intro id hid
    rcases h with h | h
    · obtain ⟨s, rfl⟩ := h id hid
      simp [Expr.makeLiteral, Expr.isLiteral, Expr.unliteral]
    · obtain ⟨i, hi, rfl⟩ := h id hid
      exact ⟨rfl, rfl⟩
  have all : Expr.isLiteral (.arr (ids.map Expr.makeLiteral)) := by
    rw [Expr.isLiteral, Expr.allLiteral_eq, List.all_map, List.all_eq_true]
    exact fun id hid => (literal id hid).1
  have same : ids.map (Expr.unliteral ∘ Expr.makeLiteral) = ids.map id :=
    List.map_congr_left fun id hid => (literal id hid).2
  rw [Expr.makeLiteral, Value.makeLiteralAll_eq, Expr.eval_of_isLiteral all, Expr.unliteral,
    Expr.unliteralAll_eq, List.map_map, same, List.map_id]

theorem isMatch_inPredicate (h : UniformIds ids) (key : String) (record : Record) :
    Store.isMatch (some (inPredicate key ids)) record = .ok (hits key ids record) := by
  have hkey : Expr.eval (.node "fields" (.obj record)) (.str key) = .ok (record.refer key) := rfl
  have heval : Expr.eval (.node "fields" (.obj record)) (inPredicate key ids) =
      .ok (.bool (hits key ids record)) := by
    rw [inPredicate, Expr.eval_node_binary _ rfl hkey (h.eval_makeLiteral _)]
    rfl
  rw [Store.isMatch, heval]
  rfl

theorem mono (h : UniformIds ids) {own : List Value} (sub : own ⊆ ids) : UniformIds own :=
  h.imp (fun h id hid => h id (sub hid)) fun h id hid => h id (sub hid)

/-- Ids of one kind are told apart by their texts. -/
theorem eq_of_idText (h : UniformIds ids) {id other : Value} (hid : id ∈ ids) (hother : other ∈ ids)
    (htext : idText id = idText other) : id = other := by
  rcases h with h | h
  · obtain ⟨s, rfl⟩ := h id hid
    obtain ⟨t, rfl⟩ := h other hother
    exact congrArg Value.str htext
  · obtain ⟨i, hi, rfl⟩ := h id hid
    obtain ⟨j, hj, rfl⟩ := h other hother
    exact congrArg Value.num (Number.eq_of_text_eq htext)

theorem mem_distinctIds (h : UniformIds ids) {id : Value} : id ∈ distinctIds ids ↔ id ∈ ids := by
  refine ⟨mem_of_mem_distinctIds, fun hid => ?_⟩
  obtain ⟨kept, hkept, htext⟩ := exists_mem_distinctIds hid
  rwa [← h.eq_of_idText (mem_of_mem_distinctIds hkept) hid htext]

/-- Among ids of one kind, a value with the text of an id is hit by this id if it is hit at all. -/
theorem equal_of_idText (h : UniformIds ids) {id other v : Value} (hid : id ∈ ids) (hother : other ∈ ids)
    (htext : idText v = idText id) (hit : Expr.equal other v) : Expr.equal id v := by
  rcases h with h | h
  · obtain ⟨s, rfl⟩ := h id hid
    obtain ⟨t, rfl⟩ := h other hother
    cases v with
    | str u =>
      obtain rfl : u = s := htext
      simp [Expr.equal, Value.same]
    | _ => cases hit
  · obtain ⟨i, hi, rfl⟩ := h id hid
    obtain ⟨j, hj, rfl⟩ := h other hother
    cases v with
    | num n =>
      obtain rfl : n = .int i hi := Number.eq_of_text_eq htext
      exact beq_self_eq_true _
    | _ => cases hit

end UniformIds

theorem hits_iff {key : String} {ids : List Value} {record : Record} :
    hits key ids record = true ↔ ∃ id ∈ ids, Expr.equal id (record.refer key) = true := List.any_eq_true

/-- A record whose key means the same as a reference and as a path. -/
def Record.Plain (key : String) (record : Record) : Prop :=
  ∀ v, record.read key = some v → record.refer key = v

/-- Whether a record with the text of an id is hit does not depend on the other ids. -/
theorem hits_eq_of_subset {key : String} {ids own : List Value} {record : Record} {id : Value}
    (uniform : UniformIds ids) (sub : own ⊆ ids) (plain : record.Plain key) (hid : id ∈ own)
    (htext : (record.read key).map idText = some (idText id)) :
    hits key ids record = hits key own record := by
  obtain ⟨v, hv, htext⟩ := Option.map_eq_some_iff.mp htext
  rw [Bool.eq_iff_iff, hits_iff, hits_iff, plain v hv]
  refine ⟨fun ⟨other, hother, hit⟩ => ⟨id, hid, ?_⟩, fun ⟨other, hother, hit⟩ => ⟨other, sub hother, hit⟩⟩
  exact uniform.equal_of_idText (sub hid) hother htext hit

/-! Pages of targets -/

/-- Only as many targets are kept as a page holds, whether one more was read or all. -/
theorem Store.take_window (n : UInt64) (records : List Record) :
    (Store.window 0 (some (Window.oneMore n)) records).take n.toNat = records.take n.toNat := by
  have size : min n.toNat (Window.oneMore n).toNat = n.toNat := by
    rw [Window.toNat_oneMore]
    have := n.toNat_lt
    have : UInt64.size = 2 ^ 64 := rfl
    omega
  rw [Store.window, List.take_take, size]
  rfl

namespace Engine
variable {e : Engine} {r : Resource} {f : Field} {t : Target}

/-! Computed relations -/

/-- The stored records of a target. -/
def Target.stored (t : Target) (e : Engine) : List Record := e.store.records t.source

/-- Whether a record satisfies what the level of a target prepares. -/
def Target.admits (t : Target) (record : Record) : Bool :=
  (Store.isMatch (conjoin t.predicates) record).toOption.getD false

/-- What is fetched for ids of a computed relation. -/
def Target.found (t : Target) (e : Engine) (ids : List Value) : List Record :=
  sortRecords t.sort ((t.stored e).filter fun record =>
    hits t.resource.idKey ids record && t.admits record)

/-- Targets can be fetched by ids if the predicates have a value on each record that is hit. -/
def Target.Fetches (t : Target) (e : Engine) (ids : List Value) : Prop :=
  (∃ records, e.store.collection t.source = .ok records) ∧
    ∀ record ∈ t.stored e, hits t.resource.idKey ids record →
      ∃ keep, Store.isMatch (conjoin t.predicates) record = .ok keep

theorem fetch_computed {ids : List Value} (uniform : UniformIds ids) {fetched : Fetched} :
    e.store.fetch (computedRequest t ids) = .ok fetched ↔
      t.Fetches e ids ∧ fetched = ⟨t.found e ids, none⟩ := by
  have asked (record : Record) : Store.isMatch (computedRequest t ids).predicate record =
      if hits t.resource.idKey ids record then Store.isMatch (conjoin t.predicates) record
      else .ok false :=
    Store.isMatch_conjoin_cons (uniform.isMatch_inPredicate t.resource.idKey record)
  have kept : (t.stored e).filter (fun record =>
      (Store.isMatch (computedRequest t ids).predicate record).toOption.getD false) =
      (t.stored e).filter fun record => hits t.resource.idKey ids record && t.admits record := by
    refine List.filter_congr fun record _ => ?_
    rw [asked]
    cases hits t.resource.idKey ids record <;> rfl
  have defined : (∀ record ∈ t.stored e, ∃ keep,
      Store.isMatch (computedRequest t ids).predicate record = .ok keep) ↔
      ∀ record ∈ t.stored e, hits t.resource.idKey ids record →
        ∃ keep, Store.isMatch (conjoin t.predicates) record = .ok keep := by
    refine forall₂_congr fun record _ => ?_
    rw [asked]
    cases hits t.resource.idKey ids record <;> simp
  rw [Store.fetch_eq_ok rfl, Target.Fetches, and_assoc]
  refine and_congr_right fun _ => ?_
  simp only [Store.select_eq_ok]
  change (∃ found, ((∀ record ∈ t.stored e, _) ∧ found = (t.stored e).filter _) ∧ _) ↔ _
  rw [kept, defined]
  constructor
  · rintro ⟨_, ⟨hall, rfl⟩, rfl⟩
    exact ⟨hall, rfl⟩
  · rintro ⟨hall, rfl⟩
    exact ⟨_, ⟨hall, rfl⟩, rfl⟩

/-- The records of a row are found among those of all rows as among its own. -/
theorem pick_found {ids own : List Value} (uniform : UniformIds ids) (sub : own ⊆ ids)
    (columns : ∀ key ∈ t.sort, OneKind (t.stored e) key.path)
    (plain : ∀ record ∈ t.stored e, record.Plain t.resource.idKey) :
    pick t.resource.idKey (!t.sort.isEmpty) (t.found e ids) own =
      pick t.resource.idKey (!t.sort.isEmpty) (t.found e own) own := by
  have among (ids : List Value) : ∀ key ∈ t.sort, OneKind ((t.stored e).filter fun record =>
      hits t.resource.idKey ids record && t.admits record) key.path :=
    fun key hkey => (columns key hkey).mono ((List.filter_subset_self _))
  have same (record : Record) (hrecord : record ∈ t.stored e) (id : Value) (hid : id ∈ own)
      (htext : (record.read t.resource.idKey).map idText = some (idText id)) :=
    hits_eq_of_subset uniform sub (plain record hrecord) hid htext
  cases hsort : t.sort.isEmpty with
  | false =>
    simp only [pick, Bool.not_false, if_true, Target.found]
    rw [filter_sortRecords (among ids), filter_sortRecords (among own), List.filter_filter,
      List.filter_filter]
    refine congrArg (sortRecords t.sort) (List.filter_congr fun record hrecord => ?_)
    cases htext : (record.read t.resource.idKey).map idText with
    | none => rfl
    | some text =>
      rw [Option.any_some]
      cases hown : (own.map idText).contains text with
      | false => rfl
      | true =>
        obtain ⟨id, hid, rfl⟩ := List.mem_map.mp (List.contains_iff_mem.mp hown)
        rw [same record hrecord id hid htext]
  | true =>
    simp only [pick, Bool.not_true, Bool.false_eq_true, if_false, Target.found, sortRecords, hsort,
      if_true]
    refine List.filterMap_congr fun text htext => ?_
    obtain ⟨id, hid, rfl⟩ := List.mem_map.mp htext
    rw [← List.filter_reverse, ← List.filter_reverse, List.find?_filter, List.find?_filter]
    refine List.find?_congr fun record hrecord => ?_
    cases htext : (record.read t.resource.idKey).map idText == some (idText id) with
    | false => simp
    | true => rw [same record (List.mem_reverse.mp hrecord) id hid (beq_iff_eq.mp htext)]

/-- Rows of computed ids that can be loaded together: the ids are of one kind, as are the columns that
their targets are sorted by, and the key of the targets means the same in a predicate. -/
structure Target.Regular (t : Target) (e : Engine) (values : List Value) : Prop where
  ids : UniformIds (values.flatMap (linkedIds t.resource.idKey))
  columns : ∀ key ∈ t.sort, OneKind (t.stored e) key.path
  plain : ∀ record ∈ t.stored e, record.Plain t.resource.idKey

theorem Target.Regular.mono {values some : List Value} (h : t.Regular e values) (sub : some ⊆ values) :
    t.Regular e some where
  ids := h.ids.mono fun id hid => by
    obtain ⟨v, hv, hid⟩ := List.mem_flatMap.mp hid
    exact List.mem_flatMap.mpr ⟨v, sub hv, hid⟩
  columns := h.columns
  plain := h.plain

/-- The targets of computed ids, loaded for their row alone. -/
def Target.picked (t : Target) (e : Engine) (v : Value) : List Record :=
  pick t.resource.idKey (!t.sort.isEmpty) (t.found e (linkedIds t.resource.idKey v))
    (linkedIds t.resource.idKey v)

theorem picked_of_nil {v : Value} (h : linkedIds t.resource.idKey v = []) : t.picked e v = [] := by
  rw [Target.picked, h, pick]
  cases t.sort.isEmpty <;> simp

/-- The ids of several rows can be fetched if those of each row can. -/
theorem fetches_iff {ids : List Value} {values : List Value} (some : ids ≠ [])
    (h : ∀ id, id ∈ ids ↔ id ∈ values.flatMap (linkedIds t.resource.idKey)) :
    t.Fetches e ids ↔ ∀ v ∈ values, linkedIds t.resource.idKey v ≠ [] →
      t.Fetches e (linkedIds t.resource.idKey v) := by
  simp only [List.mem_flatMap] at h
  constructor
  · rintro ⟨stored, hall⟩ v hv -
    refine ⟨stored, fun record hrecord hhits => hall record hrecord ?_⟩
    obtain ⟨id, hid, hit⟩ := hits_iff.mp hhits
    exact hits_iff.mpr ⟨id, (h id).mpr ⟨v, hv, hid⟩, hit⟩
  · intro hrows
    have row {id : Value} (hid : id ∈ ids) :
        ∃ v, id ∈ linkedIds t.resource.idKey v ∧ t.Fetches e (linkedIds t.resource.idKey v) := by
      obtain ⟨v, hv, hid⟩ := (h id).mp hid
      exact ⟨v, hid, hrows v hv (List.ne_nil_of_mem hid)⟩
    obtain ⟨first, hfirst⟩ := List.exists_mem_of_ne_nil ids some
    obtain ⟨-, -, stored, -⟩ := row hfirst
    refine ⟨stored, fun record hrecord hhits => ?_⟩
    obtain ⟨id, hid, hit⟩ := hits_iff.mp hhits
    obtain ⟨v, hmem, -, hall⟩ := row hid
    exact hall record hrecord (hits_iff.mpr ⟨id, hmem, hit⟩)

/-- Targets for computed ids are loaded row by row. -/
theorem loadComputed_eq_ok {values : List Value} {groups : List (List Record)}
    (regular : t.Regular e values) :
    (e.loadComputed t values).outcome = .ok groups ↔
      (∀ v ∈ values, linkedIds t.resource.idKey v ≠ [] →
        t.Fetches e (linkedIds t.resource.idKey v)) ∧ groups = values.map (t.picked e) := by
  obtain ⟨uniform, columns, plain⟩ := regular
  unfold loadComputed
  dsimp only
  rw [← List.flatMap_def]
  have kept {id : Value} : id ∈ distinctIds (values.flatMap (linkedIds t.resource.idKey)) ↔
      id ∈ values.flatMap (linkedIds t.resource.idKey) := uniform.mem_distinctIds
  generalize distinctIds (values.flatMap (linkedIds t.resource.idKey)) = ids at kept
  have own {v : Value} (hv : v ∈ values) : linkedIds t.resource.idKey v ⊆ ids :=
    fun id hid => kept.mpr (List.mem_flatMap.mpr ⟨v, hv, hid⟩)
  have uniform : UniformIds ids := uniform.mono fun id hid => kept.mp hid
  have alone {v : Value} (hv : v ∈ values) : pick t.resource.idKey (!t.sort.isEmpty) (t.found e ids)
      (linkedIds t.resource.idKey v) = t.picked e v := pick_found uniform (own hv) columns plain
  cases ids with
  | nil =>
    have none {v : Value} (hv : v ∈ values) : linkedIds t.resource.idKey v = [] :=
      List.eq_nil_iff_forall_not_mem.mpr fun id hid => List.not_mem_nil (own hv hid)
    have groups_eq : (values.map (linkedIds t.resource.idKey)).map (fun _ => ([] : List Record)) =
        values.map (t.picked e) := by
      rw [List.map_map]
      exact List.map_congr_left fun v hv => (picked_of_nil (none hv)).symm
    dsimp only
    rw [groups_eq]
    constructor
    · rintro ⟨⟩
      exact ⟨fun v hv hne => absurd (none hv) hne, rfl⟩
    · rintro ⟨-, rfl⟩
      rfl
  | cons id ids =>
    have rows : (values.map (linkedIds t.resource.idKey)).map
        (pick t.resource.idKey (!t.sort.isEmpty) (t.found e (id :: ids))) = values.map (t.picked e) := by
      rw [List.map_map]
      exact List.map_congr_left fun v hv => alone hv
    have fetches := fetches_iff (e := e) (t := t) (List.cons_ne_nil id ids) fun id => kept
    dsimp only
    rw [Run.outcome_bind]
    simp only [Store.runFetch, Store.answer_eq_ok, fetch_computed uniform]
    constructor
    · rintro ⟨_, ⟨hfetches, rfl⟩, h⟩
      cases h
      exact ⟨fetches.mp hfetches, rows⟩
    · rintro ⟨hfetches, rfl⟩
      exact ⟨_, ⟨fetches.mpr hfetches, rfl⟩, congrArg Except.ok rows⟩

theorem picked_subset (v : Value) : t.picked e v ⊆ t.stored e := fun _ h =>
  List.mem_of_mem_filter (mem_sortRecords.mp (mem_of_mem_pick h))

/-! Stored relations -/

/-- The text of the id that a record is known by to its relations. -/
def parentText (r : Resource) (record : Option Record) : String :=
  idText ((record.bind fun stored => stored.read r.idKey).getD .null)

theorem lookup_map_self {α : Type} (f : String → α) {ids : List String} {id : String} (h : id ∈ ids) :
    (ids.map fun id => (id, f id)).lookup id = some (f id) := by
  induction ids with
  | nil => cases h
  | cons first ids ih =>
    rw [List.map_cons, List.lookup_cons]
    cases hid : id == first with
    | true => rw [beq_iff_eq.mp hid]
    | false => exact ih ((List.mem_cons.mp h).resolve_left (ne_of_beq_false hid))

section stored
variable (e r f t) (source path : String)

/-- What is stored as the targets of a record. -/
def linkedTargets (record : Option Record) : Except StoreError (List Record) :=
  e.store.targetsOf (relatedRequest r f t source path []) (parentText r record)

/-- Stored targets are loaded record by record. -/
theorem loadStored_eq_ok {records : List (Option Record)} {groups : List (List Record)} :
    (e.loadStored r f t source path records).outcome = .ok groups ↔
      ((∃ rs, e.store.collection source = .ok rs) ∧ ∃ rs, e.store.collection t.source = .ok rs) ∧
      (∀ record ∈ records, ∃ found, e.linkedTargets r f t source path record = .ok found) ∧
      groups = records.map fun record =>
        (e.linkedTargets r f t source path record).toOption.getD [] := by
  have texts : (parentIds r records).map idText = records.map (parentText r) := List.map_map
  have fetched {found : List (String × List Record)} :
      e.store.fetchRelated (relatedRequest r f t source path (parentIds r records)) = .ok found ↔
        ((∃ rs, e.store.collection source = .ok rs) ∧ ∃ rs, e.store.collection t.source = .ok rs) ∧
        (∀ record ∈ records, ∃ found, e.linkedTargets r f t source path record = .ok found) ∧
        found = (records.map (parentText r)).eraseDups.map fun id => (id,
          (e.store.targetsOf (relatedRequest r f t source path []) id).toOption.getD []) := by
    have defined : (∀ id ∈ (records.map (parentText r)).eraseDups, ∃ found,
        e.store.targetsOf (relatedRequest r f t source path []) id = .ok found) ↔
        ∀ record ∈ records, ∃ found, e.linkedTargets r f t source path record = .ok found := by
      simp only [List.mem_eraseDups, List.forall_mem_map]
      rfl
    rw [Store.fetchRelated_eq_ok, ← defined, ← texts]
    rfl
  have dealt : (parentIds r records).map (fun id =>
      (((records.map (parentText r)).eraseDups.map fun id => (id,
        (e.store.targetsOf (relatedRequest r f t source path []) id).toOption.getD [])).lookup
          (idText id)).getD []) =
      records.map fun record => (e.linkedTargets r f t source path record).toOption.getD [] := by
    rw [parentIds, List.map_map]
    refine List.map_congr_left fun record hrecord => ?_
    have hid := List.mem_eraseDups.mpr (List.mem_map_of_mem (f := parentText r) hrecord)
    have found := lookup_map_self (fun id =>
      (e.store.targetsOf (relatedRequest r f t source path []) id).toOption.getD []) hid
    change (List.lookup (parentText r record) _).getD [] = _
    rw [found]
    rfl
  unfold loadStored
  rw [Run.outcome_bind]
  simp only [Store.runRelated, Store.answer_eq_ok, fetched]
  constructor
  · rintro ⟨_, ⟨stored, hall, rfl⟩, h⟩
    exact ⟨stored, hall, (Except.ok.inj h).symm.trans dealt⟩
  · rintro ⟨stored, hall, rfl⟩
    exact ⟨_, ⟨stored, hall, rfl⟩, congrArg Except.ok dealt⟩

theorem linkedTargets_subset (record : Option Record) :
    (e.linkedTargets r f t source path record).toOption.getD [] ⊆ t.stored e := by
  cases hlinked : e.linkedTargets r f t source path record with
  | error err => exact List.nil_subset _
  | ok found => exact Store.mem_of_mem_targetsOf hlinked

end stored

/-! All relations -/

/-- The targets of a relation are not stored with it. -/
def Computes (r : Resource) (f : Field) : Prop :=
  ∀ path source, f.source = .path path → r.source ≠ some source

/-- Targets are loaded record by record. -/
theorem pointwise_loadTargets {domain : List (Option Record)} {value : Option Record → Value}
    (regular : Computes r f → t.Regular e (domain.map value)) :
    ∃ targets, Pointwise domain (fun records => e.loadTargets r f t records (records.map value))
      targets ∧ ∀ record, targets record ⊆ t.stored e := by
  by_cases hstored : ∃ path source, f.source = .path path ∧ r.source = some source
  · obtain ⟨path, source, hpath, hsource⟩ := hstored
    refine ⟨_, ⟨(∃ rs, e.store.collection source = .ok rs) ∧
      ∃ rs, e.store.collection t.source = .ok rs, fun record =>
      ∃ found, e.linkedTargets r f t source path record = .ok found, fun records _ groups => ?_⟩,
      linkedTargets_subset e r f t source path⟩
    simp only [loadTargets, hpath, hsource]
    exact loadStored_eq_ok e r f t source path
  · have computed : Computes r f := fun path source hpath hsource =>
      hstored ⟨path, source, hpath, hsource⟩
    refine ⟨fun record => t.picked e (value record), ⟨True, fun record =>
      linkedIds t.resource.idKey (value record) ≠ [] →
        t.Fetches e (linkedIds t.resource.idKey (value record)), fun records sub groups => ?_⟩,
      fun record => picked_subset _⟩
    have load : e.loadTargets r f t records (records.map value) =
        e.loadComputed t (records.map value) := by
      unfold loadTargets
      split
      · exact absurd ‹_› (computed _ _ ‹_›)
      · rfl
    have sub : records.map value ⊆ domain.map value := List.map_subset _ sub
    dsimp only
    rw [load, loadComputed_eq_ok ((regular computed).mono sub), List.forall_mem_map, List.map_map,
      true_and]
    rfl

end Engine
end RecordGraph
