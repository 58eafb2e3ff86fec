import Mathlib.Data.List.Nodup
import RecordGraph.Proofs.Run.Batches
import RecordGraph.Proofs.Run.Levels

/-!
Two ways to load a list of targets. The ids that a record holds are followed by the store, record by
record, or computed, fetched at once and dealt out again. Each record gets the same targets, if the key
of the targets means the same in a predicate and no predicate fails on a target that is only close to
one that is asked for.
-/
namespace RecordGraph

/-! Records by their ids -/

namespace Record
variable {key : String} {record : Record}

theorem read_segment (undotted : '.' ∉ key.toList) : record.read key = record.get? key := by
  rw [read, Text.splitFirst_of_not_mem undotted]

/-- The text of the id that a record is known by. -/
def idAt (key : String) (record : Record) : Option String := (record.get? key).map idText

/-- The ids that a record lists. -/
def listed (key : String) (record : Record) : List Value :=
  match record.get? key with
  | some (.arr ids) => ids
  | _ => []

theorem get?_eq_none_or_null (h : (record.get? key).getD .null = .null) :
    record.get? key = none ∨ record.get? key = some .null := by
  cases hv : record.get? key with
  | none => exact .inl rfl
  | some v => exact .inr (congrArg some (by rwa [hv] at h))

/-- A record that holds nothing lists nothing. -/
theorem listed_of_null (h : (record.get? key).getD .null = .null) : record.listed key = [] := by
  unfold listed
  rcases get?_eq_none_or_null h with hv | hv <;> rw [hv]

end Record

theorem Store.hasId_iff {key id : String} {record : Record} :
    hasId key id record = true ↔ record.idAt key = some id := by
  unfold hasId Record.idAt
  cases record.get? key <;> simp

/-- Every record has an id, with a text of its own, under a key of one segment. -/
structure Keyed (key : String) (records : List Record) : Prop where
  undotted : '.' ∉ key.toList
  held : ∀ record ∈ records, (record.get? key).isSome
  distinct : (records.map (Record.idAt key)).Nodup

namespace Keyed
variable {key : String} {records : List Record} (h : Keyed key records)
include h

theorem unique {a b : Record} (ha : a ∈ records) (hb : b ∈ records)
    (same : a.idAt key = b.idAt key) : a = b := List.inj_on_of_nodup_map h.distinct ha hb same

theorem nodup : records.Nodup := h.distinct.of_map _

theorem find?_hasId {id : String} {record : Record} :
    records.find? (Store.hasId key id) = some record ↔ record ∈ records ∧ record.idAt key = some id := by
  rw [List.find?_eq_some_of_unique, Store.hasId_iff]
  intro a ha b hb hpa hpb
  rw [Store.hasId_iff] at hpa hpb
  exact h.unique ha hb (hpa.trans hpb.symm)

theorem mem_linked {ids : List Value} {record : Record} : record ∈ Store.linked key records (.arr ids) ↔
    record ∈ records ∧ ∃ id ∈ ids, record.idAt key = some (idText id) := by
  simp only [Store.linked, List.mem_filterMap, h.find?_hasId]
  constructor
  · rintro ⟨id, hid, hrecord, htext⟩
    exact ⟨hrecord, id, hid, htext⟩
  · rintro ⟨hrecord, id, hid, htext⟩
    exact ⟨id, hid, hrecord, htext⟩

/-- Ids with different texts lead to different records. -/
theorem nodup_linked {ids : List Value} (distinct : (ids.map idText).Nodup) :
    (Store.linked key records (.arr ids)).Nodup := by
  have texts : Store.linked key records (.arr ids) =
      (ids.map idText).filterMap fun id => records.find? (Store.hasId key id) := by
    rw [List.filterMap_map]
    rfl
  rw [texts]
  refine List.Nodup.filterMap (fun id other record hid hother => ?_) distinct
  have hid := (h.find?_hasId.mp hid).2
  exact Option.some.inj (hid.symm.trans (h.find?_hasId.mp hother).2)

end Keyed

/-- Among ids of one kind, an id is equal to itself. -/
theorem UniformIds.equal_self {ids : List Value} (h : UniformIds ids) {id : Value} (hid : id ∈ ids) :
    Expr.equal id id = true := by
  rcases h with h | h
  · obtain ⟨s, rfl⟩ := h id hid
    simp [Expr.equal, Value.same]
  · obtain ⟨i, hi, rfl⟩ := h id hid
    exact beq_self_eq_true _

section rows
variable {key : String} {keys : List SortKey} {targets : List Record} {ids own : List Value}
  (keyed : Keyed key targets) (uniform : UniformIds (targets.filterMap (·.get? key) ++ ids))
  (plain : ∀ target ∈ targets, target.Plain key)
include keyed uniform plain

/-- A target is hit by its own id. -/
theorem hits_of_idAt {target : Record} (htarget : target ∈ targets) {id : Value} (hid : id ∈ ids)
    (htext : target.idAt key = some (idText id)) : hits key ids target = true := by
  obtain ⟨v, hv, htext⟩ := Option.map_eq_some_iff.mp htext
  have hmem : v ∈ targets.filterMap (·.get? key) := List.mem_filterMap.mpr ⟨target, htarget, hv⟩
  have hid' := List.mem_append_right (targets.filterMap (·.get? key)) hid
  obtain rfl : v = id := uniform.eq_of_idText (List.mem_append_left _ hmem) hid' htext
  have hrefer : target.refer key = v :=
    plain target htarget v (by rw [Record.read_segment keyed.undotted, hv])
  exact hits_iff.mpr ⟨v, hid, by rw [hrefer]; exact uniform.equal_self hid'⟩

omit keyed uniform plain in
theorem mem_fetched {admits : Record → Bool} {target : Record} :
    (target ∈ targets.filter fun target => hits key ids target && admits target) ↔
      target ∈ targets ∧ hits key ids target = true ∧ admits target = true := by
  rw [List.mem_filter, Bool.and_eq_true]

/-- Targets that are not sorted are picked in the order of the ids. -/
theorem pick_linked (sub : own ⊆ ids) (admits : Record → Bool) :
    Engine.pick key false (targets.filter fun target => hits key ids target && admits target) own =
      (Store.linked key targets (.arr own)).filter admits := by
  have textOf (target : Record) : (target.read key).map idText = target.idAt key := by
    rw [Record.read_segment keyed.undotted, Record.idAt]
  simp only [Engine.pick, textOf, Bool.false_eq_true, if_false, Store.linked, List.filter_filterMap,
    List.filterMap_map]
  refine List.filterMap_congr fun id hid => Option.ext fun target => ?_
  rw [Function.comp_apply, List.find?_eq_some_of_unique, List.mem_reverse, mem_fetched,
    Option.filter_eq_some_iff, keyed.find?_hasId, beq_iff_eq]
  · constructor
    · rintro ⟨⟨htarget, -, hadmits⟩, htext⟩
      exact ⟨⟨htarget, htext⟩, hadmits⟩
    · rintro ⟨⟨htarget, htext⟩, hadmits⟩
      exact ⟨⟨htarget, hits_of_idAt keyed uniform plain htarget (sub hid) htext, hadmits⟩, htext⟩
  · intro a ha b hb hpa hpb
    rw [List.mem_reverse, mem_fetched] at ha hb
    exact keyed.unique ha.1 hb.1 ((beq_iff_eq.mp hpa).trans (beq_iff_eq.mp hpb).symm)

/-- Sorted targets stay in their order. -/
theorem pick_sorted (strict : StrictlyOrders keys targets) (sub : own ⊆ ids) (nodup : own.Nodup)
    (admits : Record → Bool) :
    Engine.pick key true (sortRecords keys (targets.filter fun target =>
      hits key ids target && admits target)) own =
    sortRecords keys ((Store.linked key targets (.arr own)).filter admits) := by
  have texts : (own.map idText).Nodup := nodup.map_on fun id hid other hother htext =>
    uniform.eq_of_idText (List.mem_append_right _ (sub hid)) (List.mem_append_right _ (sub hother)) htext
  have textOf (target : Record) : (target.read key).map idText = target.idAt key := by
    rw [Record.read_segment keyed.undotted, Record.idAt]
  have wanted {target : Record} : ((target.idAt key).any fun id => (own.map idText).contains id) = true ↔
      ∃ id ∈ own, target.idAt key = some (idText id) := by
    cases target.idAt key <;> simp [eq_comm]
  simp only [Engine.pick, textOf, if_true]
  rw [(strict.orders.mono (List.filter_subset_self _)).filter_sortRecords]
  refine strict.sortRecords_eq (fun target htarget => ?_) ?_
  · exact (mem_fetched.mp (List.mem_of_mem_filter htarget)).1
  · refine (List.perm_ext_iff_of_nodup ((keyed.nodup.filter _).filter _)
      ((keyed.nodup_linked texts).filter _)).mpr fun target => ?_
    rw [List.mem_filter, mem_fetched, wanted, List.mem_filter, keyed.mem_linked]
    constructor
    · rintro ⟨⟨htarget, -, hadmits⟩, hown⟩
      exact ⟨⟨htarget, hown⟩, hadmits⟩
    · rintro ⟨⟨htarget, id, hid, htext⟩, hadmits⟩
      exact ⟨⟨htarget, hits_of_idAt keyed uniform plain htarget (sub hid) htext, hadmits⟩, id, hid, htext⟩

/-- Of what is fetched for the ids of several rows, a row picks what its own ids are linked to. -/
theorem pick_fetched (strict : keys = [] ∨ StrictlyOrders keys targets) (sub : own ⊆ ids)
    (nodup : own.Nodup) (admits : Record → Bool) :
    Engine.pick key (!keys.isEmpty) (sortRecords keys (targets.filter fun target =>
      hits key ids target && admits target)) own =
    sortRecords keys ((Store.linked key targets (.arr own)).filter admits) := by
  by_cases hkeys : keys = []
  · subst hkeys
    simp only [List.isEmpty_nil, Bool.not_true, sortRecords, if_true]
    exact pick_linked keyed uniform plain sub admits
  · have sorted : (!keys.isEmpty) = true := by simpa using hkeys
    rw [sorted]
    exact pick_sorted keyed uniform plain (strict.resolve_left hkeys) sub nodup admits

end rows

/-- Each record has at a key of one segment nothing, or a list of ids of the kind that the ids of the
targets are of, none of them twice. -/
structure ListsIds (c key : String) (records targets : List Record) : Prop where
  undotted : '.' ∉ c.toList
  lists : ∀ record ∈ records,
    (record.get? c).getD .null = .null ∨ record.get? c = some (.arr (record.listed c))
  nodup : ∀ record ∈ records, (record.listed c).Nodup
  uniform : UniformIds (targets.filterMap (·.get? key) ++ records.flatMap (Record.listed c))

theorem UniformIds.linkedIds {ids : List Value} (h : UniformIds ids) (key : String) :
    linkedIds key (.arr ids) = ids := by
  have flat : ∀ id ∈ ids, shallow (some key) id = id ∧ id.isNull = false := by
    rcases h with h | h
    · intro id hid
      obtain ⟨s, rfl⟩ := h id hid
      exact ⟨rfl, rfl⟩
    · intro id hid
      obtain ⟨i, hi, rfl⟩ := h id hid
      exact ⟨rfl, rfl⟩
  have same : ids.map (shallow (some key)) = ids.map id :=
    List.map_congr_left fun id hid => (flat id hid).1
  change (ids.map (shallow (some key))).filter (fun id => !id.isNull) = ids
  rw [same, List.map_id, List.filter_eq_self]
  exact fun id hid => by rw [(flat id hid).2]; rfl

namespace ListsIds
variable {c key : String} {records targets : List Record} (h : ListsIds c key records targets)
include h

theorem mono {some : List Record} (sub : some ⊆ records) : ListsIds c key some targets where
  undotted := h.undotted
  lists record hrecord := h.lists record (sub hrecord)
  nodup record hrecord := h.nodup record (sub hrecord)
  uniform := h.uniform.mono (List.append_subset.mpr ⟨List.subset_append_left .., fun id hid => by
    obtain ⟨record, hrecord, hid⟩ := List.mem_flatMap.mp hid
    exact List.mem_append_right _ (List.mem_flatMap.mpr ⟨record, sub hrecord, hid⟩)⟩)

/-- What a record holds are the ids that it lists. -/
theorem linkedIds_eq {record : Record} (hrecord : record ∈ records) :
    linkedIds key ((record.get? c).getD .null) = record.listed c := by
  rcases h.lists record hrecord with hnull | hlist
  · rw [hnull, Record.listed_of_null hnull]
    rfl
  · have uniform : UniformIds (record.listed c) := h.uniform.mono fun id hid =>
      List.mem_append_right _ (List.mem_flatMap.mpr ⟨record, hrecord, hid⟩)
    rw [hlist]
    exact uniform.linkedIds key

end ListsIds

namespace Engine
variable {e : Engine} {r : Resource} {f g : Field} {t : Target} {c source : String}

/-- The targets that a record lists, of those that its level admits. -/
def Target.listed (t : Target) (e : Engine) (c : String) (record : Record) : List Record :=
  sortRecords t.sort
    ((Store.linked t.resource.idKey (t.stored e) (.arr (record.listed c))).filter t.admits)

/-- The predicates of a target have a value on all that records list. -/
def Target.Decides (t : Target) (e : Engine) (c : String) (records : List Record) : Prop :=
  ∀ record ∈ records, ∀ target ∈ Store.linked t.resource.idKey (t.stored e) (.arr (record.listed c)),
    ∃ keep, Store.isMatch (conjoin t.predicates) target = .ok keep

/-! Through the store -/

/-- A record is found by its own id, and with it what it lists. -/
theorem candidates_listed {relation : Relation} {parents targets : List Record} {record : Record}
    (keyed : Keyed relation.parentKey parents) (hrecord : record ∈ parents)
    (lists : ListsIds relation.field relation.targetKey parents targets)
    (inverse : relation.inverse = none) {id : String} (hid : record.idAt relation.parentKey = some id) :
    Store.candidates relation parents targets id =
      Store.linked relation.targetKey targets (.arr (record.listed relation.field)) := by
  have found : parents.find? (Store.hasId relation.parentKey id) = some record :=
    keyed.find?_hasId.mpr ⟨hrecord, hid⟩
  unfold Store.candidates
  rw [found, inverse, Option.bind_some, Record.read_segment lists.undotted]
  rcases lists.lists record hrecord with hnull | hlist
  · rw [Record.listed_of_null hnull]
    rcases Record.get?_eq_none_or_null hnull with hv | hv <;>
      · rw [hv]
        rfl
  · rw [hlist]
    rfl

theorem idAt_eq_parentText {records : List Record} (keyed : Keyed r.idKey records) {record : Record}
    (hrecord : record ∈ records) : record.idAt r.idKey = some (parentText r (some record)) := by
  obtain ⟨v, hv⟩ := Option.isSome_iff_exists.mp (keyed.held record hrecord)
  rw [Record.idAt, parentText, Option.bind_some, Record.read_segment keyed.undotted, hv]
  rfl

section loads
variable {parents : List Record}
  (lists : ListsIds c t.resource.idKey (e.store.records source) (t.stored e))

section stored
variable (keyed : Keyed r.idKey (e.store.records source)) (inverse : f.inverse = none)
  (list : f.isList = true)
include lists keyed inverse list

theorem linkedTargets_eq_ok {record : Record} (hrecord : record ∈ e.store.records source)
    {found : List Record} : e.linkedTargets r f t source c (some record) = .ok found ↔
      t.Decides e c [record] ∧
        found = Store.window 0 (some (Window.oneMore t.size)) (t.listed e c record) := by
  have candidates : Store.candidates (relatedRequest r f t source c []).relation
      (e.store.records source) (e.store.records t.source) (parentText r (some record)) =
      Store.linked t.resource.idKey (t.stored e) (.arr (record.listed c)) :=
    candidates_listed keyed hrecord lists (by simp [relatedRequest, inverse])
      (idAt_eq_parentText keyed hrecord)
  have window (matched : List Record) : Store.window (relatedRequest r f t source c []).offset
      (relatedRequest r f t source c []).limit matched =
        Store.window 0 (some (Window.oneMore t.size)) matched := by
    rw [relatedRequest, list]
    rfl
  rw [Target.Decides, List.forall_mem_singleton]
  unfold linkedTargets Store.targetsOf
  rw [Except.map_eq_ok]
  simp only [window]
  change (∃ matched, Store.select (conjoin t.predicates) (Store.candidates
    (relatedRequest r f t source c []).relation (e.store.records source) (e.store.records t.source)
    (parentText r (some record))) = .ok matched ∧ _) ↔ _
  rw [candidates]
  simp only [Store.select_eq_ok]
  constructor
  · rintro ⟨_, ⟨decides, rfl⟩, rfl⟩
    exact ⟨decides, rfl⟩
  · rintro ⟨decides, rfl⟩
    exact ⟨_, ⟨decides, rfl⟩, rfl⟩

/-- Through the store, each record gets what it lists, up to one more than is shown. -/
theorem loadStored_listed (stored : ∃ rs, e.store.collection source = .ok rs)
    (target : ∃ rs, e.store.collection t.source = .ok rs) (sub : parents ⊆ e.store.records source)
    {groups : List (List Record)} :
    (e.loadStored r f t source c (parents.map some)).outcome = .ok groups ↔
      t.Decides e c parents ∧ groups = parents.map fun record =>
        Store.window 0 (some (Window.oneMore t.size)) (t.listed e c record) := by
  have found {record : Record} (hrecord : record ∈ parents) {targets : List Record} :
      e.linkedTargets r f t source c (some record) = .ok targets ↔ t.Decides e c [record] ∧
        targets = Store.window 0 (some (Window.oneMore t.size)) (t.listed e c record) :=
    linkedTargets_eq_ok lists keyed inverse list (sub hrecord)
  rw [loadStored_eq_ok, List.forall_mem_map, List.map_map]
  have decides : (∀ record ∈ parents, ∃ found, e.linkedTargets r f t source c (some record) = .ok found) ↔
      t.Decides e c parents := by
    refine forall₂_congr fun record hrecord => ?_
    simp only [found hrecord, Target.Decides, List.forall_mem_singleton, exists_and_left, exists_eq,
      and_true]
  rw [decides, and_iff_right ⟨stored, target⟩]
  refine and_congr_right fun hdecides => Eq.congr_right (List.map_congr_left fun record hrecord => ?_)
  have alone : t.Decides e c [record] := List.forall_mem_singleton.mpr (hdecides record hrecord)
  have hfound := (found hrecord).mpr ⟨alone, rfl⟩
  rw [Function.comp_apply, hfound]
  rfl

end stored
end loads

/-! Through the ids -/

/-- A target is near the ids of some records if one of them is equal to its id, but none is its id. -/
def Target.Near (t : Target) (c : String) (records : List Record) (target : Record) : Prop :=
  ∃ record ∈ records, ∃ id ∈ record.listed c,
    Expr.equal id ((target.get? t.resource.idKey).getD .null) = true ∧
      target.idAt t.resource.idKey ≠ some (idText id)

/-- Texts are equal to no id but their own. -/
theorem Target.not_near_of_texts {records : List Record}
    (texts : ∀ record ∈ records, ∀ id ∈ record.listed c, ∃ s, id = .str s) (target : Record) :
    ¬t.Near c records target := by
  rintro ⟨record, hrecord, id, hid, hit, hne⟩
  obtain ⟨s, rfl⟩ := texts record hrecord id hid
  rw [Record.idAt] at hne
  rcases hv : target.get? t.resource.idKey with _ | v
  · rw [hv] at hit
    cases hit
  · rw [hv] at hit hne
    cases v with
    | str u =>
      obtain rfl : s = u := by simpa [Expr.equal, Value.same] using hit
      exact hne rfl
    | _ => cases hit

section computed
variable {records : List Record} (keyed : Keyed t.resource.idKey (t.stored e))
  (lists : ListsIds c t.resource.idKey records (t.stored e))
  (plain : ∀ target ∈ t.stored e, target.Plain t.resource.idKey)
include keyed lists plain

omit keyed plain in
theorem uniform_kept {ids : List Value} (kept : ∀ id, id ∈ ids ↔ id ∈ records.flatMap (Record.listed c)) :
    UniformIds ((t.stored e).filterMap (·.get? t.resource.idKey) ++ ids) :=
  lists.uniform.mono (List.append_subset.mpr ⟨List.subset_append_left ..,
    fun id hid => List.mem_append_right _ ((kept id).mp hid)⟩)

/-- Predicates can be asked of what is fetched for ids if they can be asked of what is listed, and of
what is near it. -/
theorem fetches_listed (near : ∀ target ∈ t.stored e, t.Near c records target →
      ∃ keep, Store.isMatch (conjoin t.predicates) target = .ok keep)
    (stored : ∃ rs, e.store.collection t.source = .ok rs) {ids : List Value}
    (kept : ∀ id, id ∈ ids ↔ id ∈ records.flatMap (Record.listed c)) :
    t.Fetches e ids ↔ t.Decides e c records := by
  have uniform := uniform_kept lists kept
  rw [Target.Fetches, and_iff_right stored]
  constructor
  · intro fetches record hrecord target htarget
    obtain ⟨hstored, id, hid, htext⟩ := keyed.mem_linked.mp htarget
    have hmem : id ∈ ids := (kept id).mpr (List.mem_flatMap.mpr ⟨record, hrecord, hid⟩)
    exact fetches target hstored (hits_of_idAt keyed uniform plain hstored hmem htext)
  · intro decides target hstored hhits
    obtain ⟨id, hid, hit⟩ := hits_iff.mp hhits
    obtain ⟨record, hrecord, hid⟩ := List.mem_flatMap.mp ((kept id).mp hid)
    by_cases htext : target.idAt t.resource.idKey = some (idText id)
    · exact decides record hrecord target (keyed.mem_linked.mpr ⟨hstored, id, hid, htext⟩)
    · obtain ⟨v, hv⟩ := Option.isSome_iff_exists.mp (keyed.held target hstored)
      have hrefer : target.refer t.resource.idKey = v :=
        plain target hstored v (by rw [Record.read_segment keyed.undotted, hv])
      rw [hrefer] at hit
      exact near target hstored ⟨record, hrecord, id, hid, by rwa [hv], htext⟩

/-- Through the ids, each record gets what it lists. -/
theorem loadComputed_listed (near : ∀ target ∈ t.stored e, t.Near c records target →
      ∃ keep, Store.isMatch (conjoin t.predicates) target = .ok keep)
    (stored : ∃ rs, e.store.collection t.source = .ok rs)
    (strict : t.sort = [] ∨ StrictlyOrders t.sort (t.stored e)) {groups : List (List Record)} :
    (e.loadComputed t (records.map fun record => (record.get? c).getD .null)).outcome = .ok groups ↔
      t.Decides e c records ∧ groups = records.map (t.listed e c) := by
  have rows : (records.map fun record => (record.get? c).getD .null).map
      (linkedIds t.resource.idKey) = records.map (Record.listed c) := by
    rw [List.map_map]
    exact List.map_congr_left fun record hrecord => lists.linkedIds_eq hrecord
  have uniform := lists.uniform.mono (List.subset_append_right ..)
  unfold loadComputed
  dsimp only
  rw [rows, ← List.flatMap_def]
  have kept {id : Value} : id ∈ distinctIds (records.flatMap (Record.listed c)) ↔
      id ∈ records.flatMap (Record.listed c) := uniform.mem_distinctIds
  generalize distinctIds (records.flatMap (Record.listed c)) = ids at kept
  have own {record : Record} (hrecord : record ∈ records) : record.listed c ⊆ ids :=
    fun id hid => kept.mpr (List.mem_flatMap.mpr ⟨record, hrecord, hid⟩)
  cases ids with
  | nil =>
    have none {record : Record} (hrecord : record ∈ records) : record.listed c = [] :=
      List.eq_nil_of_subset_nil (own hrecord)
    have decides : t.Decides e c records := by
      intro record hrecord target htarget
      rw [none hrecord] at htarget
      cases htarget
    have groups_eq : (records.map (Record.listed c)).map (fun _ => ([] : List Record)) =
        records.map (t.listed e c) := by
      rw [List.map_map]
      refine List.map_congr_left fun record hrecord => ?_
      simp [Target.listed, none hrecord, Store.linked, sortRecords]
    dsimp only
    rw [groups_eq, and_iff_right decides]
    exact ⟨fun h => (Except.ok.inj h).symm, fun h => congrArg Except.ok h.symm⟩
  | cons id ids =>
    have picked : (records.map (Record.listed c)).map
        (pick t.resource.idKey (!t.sort.isEmpty) (t.found e (id :: ids))) =
        records.map (t.listed e c) := by
      rw [List.map_map]
      exact List.map_congr_left fun record hrecord =>
        pick_fetched keyed (uniform_kept lists fun _ => kept) plain strict (own hrecord)
          (lists.nodup record hrecord) t.admits
    have fetches := fetches_listed keyed lists plain near stored fun _ => kept
    dsimp only
    rw [Run.outcome_bind]
    simp only [Store.runFetch, Store.answer_eq_ok,
      fetch_computed (uniform.mono fun id hid => kept.mp hid), fetches]
    constructor
    · rintro ⟨_, ⟨decides, rfl⟩, h⟩
      cases h
      exact ⟨decides, picked⟩
    · rintro ⟨decides, rfl⟩
      exact ⟨_, ⟨decides, rfl⟩, congrArg Except.ok picked⟩

end computed

/-! Rendering -/

/-- Only as many targets are shown as a page holds, whether one more was read or all. -/
theorem kept_window (list : f.isList = true) (records : List Record) (groups : Record → List Record) :
    t.kept f (records.map fun record => Store.window 0 (some (Window.oneMore t.size)) (groups record)) =
      t.kept f (records.map groups) := by
  unfold Target.kept
  rw [list, List.map_map, List.map_map]
  exact List.map_congr_left fun record _ => Store.take_window t.size (groups record)

end Engine

/-- A key of one segment that is not that of a part of the scope refers to the record. -/
theorem Expr.get_segment {c : String} {context : Value} {record : Record} (undotted : '.' ∉ c.toList)
    (named : c ∉ ["fields", "request", "query"]) (hc : context.get? "fields" = some (.obj record)) :
    Expr.get c context = (record.get? c).getD .null := by
  have unscoped := isScoped_of_not_mem undotted named
  have hpath : Expr.resolvedPath c context = "fields." ++ c := by
    simp [Expr.resolvedPath, Text.afterChar?_of_not_mem undotted, hc, unscoped]
  have hpieces : Text.pieces '.' ("fields." ++ c) = ["fields", c] := by
    rw [Text.pieces_of_append (s := "fields") (t := c) (by simp) (by decide),
      Text.pieces_of_not_mem undotted]
  have hchild : context.child? "fields" = some (.obj record) := by
    cases context with
    | obj es => exact hc
    | _ => cases hc
  rw [Expr.get, hpath, Value.lookup_of_ne_empty (by simp [← String.toList_inj]), hpieces]
  simp only [Value.descend, hchild, Option.bind_some]
  cases hv : record.get? c <;> simp [Value.child?, hv]

/-- Two list relations to the same targets, one stored under a key, the other computed from what is
stored there. -/
structure Field.Twins (f g : Field) (c : String) : Prop where
  stored : f.source = .path c
  computed : g.source = .expression (.node "get" (.str c))
  type : g.type = f.type
  can : g.can = f.can
  list : f.isList = true
  default : f.default = none ∧ g.default = none
  inverse : f.inverse = none

namespace Engine
variable {e : Engine} {ctx : Context} {r : Resource} {f g : Field} {c : String}

/-- On a record, both hold what is stored. -/
theorem fieldValue_twins (ctx : Context) (r : Resource) (twins : f.Twins g c) (undotted : '.' ∉ c.toList)
    (named : c ∉ ["fields", "request", "query"]) (bare : Expr.unquoted? c = none) (record : Record) :
    fieldValue ctx r f (some record) = .ok ((record.get? c).getD .null) ∧
      fieldValue ctx r g (some record) = .ok ((record.get? c).getD .null) := by
  have segment : Expr.get c (ctx.recordScope (some record)) = (record.get? c).getD .null :=
    Expr.get_segment undotted named rfl
  have heval : Expr.eval (ctx.recordScope (some record)) (.node "get" (.str c)) =
      .ok ((record.get? c).getD .null) :=
    (Expr.eval_node_get _ rfl).mpr ⟨c, rfl, by rw [bare, Option.getD_none, segment]⟩
  constructor
  · simp only [fieldValue, twins.stored, twins.default.1, Record.read_segment undotted]
    cases (record.get? c).getD .null <;> rfl
  · simp only [fieldValue, twins.computed, twins.default.2, heval]
    cases (record.get? c).getD .null <;> rfl

/-- A relation is rendered deeply below a level, with a nested state for its targets. -/
structure Nests (ctx : Context) (scope : Scope) (level : Level) (f : Field) (n : Query) : Prop where
  below : (ctx.query.field.isSome && level.isEmpty) = false
  deep : isDeep ctx scope f level = true
  entered : ctx.query.scope (level.enter f.name) = .ok (.state n)

/-- Two resources with stored records that are known by ids, those of the first with lists of ids of those
of the second. -/
structure Joins (e : Engine) (r related : Resource) (c source target : String) : Prop where
  kept : r.source = some source
  keptTargets : related.source = some target
  stored : ∃ rs, e.store.collection source = .ok rs
  storedTargets : ∃ rs, e.store.collection target = .ok rs
  keyed : Keyed r.idKey (e.store.records source)
  keyedTargets : Keyed related.idKey (e.store.records target)
  lists : ListsIds c related.idKey (e.store.records source) (e.store.records target)

/-- Two relations load the same of a target, as far as it is shown. -/
def LoadAlike (e : Engine) (r : Resource) (f g : Field) (t : Target) (records : List (Option Record))
    (values : List Value) : Prop :=
  ∀ kept, (∃ groups, (e.loadTargets r f t records values).outcome = .ok groups ∧
      t.kept f groups = kept) ↔
    ∃ groups, (e.loadTargets r g t records values).outcome = .ok groups ∧ t.kept g groups = kept

theorem loadTargets_twins {source : String} {t : Target} (twins : f.Twins g c)
    (joins : e.Joins r t.resource c source t.source) {records : List Record}
    (sub : records ⊆ e.store.records source)
    (strict : t.sort = [] ∨ StrictlyOrders t.sort (t.stored e))
    (plain : ∀ target ∈ t.stored e, target.Plain t.resource.idKey)
    (near : ∀ target ∈ t.stored e, t.Near c records target →
      ∃ keep, Store.isMatch (conjoin t.predicates) target = .ok keep) :
    e.LoadAlike r f g t (records.map some) (records.map fun record => (record.get? c).getD .null) := by
  intro kept
  generalize hvalues : (records.map fun record => (record.get? c).getD .null) = values
  have list : g.isList = true := by rw [Field.isList, twins.type, ← Field.isList, twins.list]
  have hstored {groups : List (List Record)} :
      (e.loadTargets r f t (records.map some) values).outcome = .ok groups ↔
        t.Decides e c records ∧ groups = records.map fun record =>
          Store.window 0 (some (Window.oneMore t.size)) (t.listed e c record) := by
    simp only [loadTargets, twins.stored, joins.kept]
    exact loadStored_listed joins.lists joins.keyed twins.inverse twins.list joins.stored
      joins.storedTargets sub
  have hcomputed {groups : List (List Record)} :
      (e.loadTargets r g t (records.map some) values).outcome = .ok groups ↔
        t.Decides e c records ∧ groups = records.map (t.listed e c) := by
    simp only [loadTargets, twins.computed, ← hvalues]
    exact loadComputed_listed joins.keyedTargets (joins.lists.mono sub) plain near joins.storedTargets
      strict
  have shown : t.kept g (records.map (t.listed e c)) = t.kept f (records.map (t.listed e c)) := by
    rw [Target.kept, Target.kept, list, twins.list]
  simp only [hstored, hcomputed]
  constructor
  · rintro ⟨_, ⟨decides, rfl⟩, rfl⟩
    exact ⟨_, ⟨decides, rfl⟩, by rw [shown, kept_window twins.list]⟩
  · rintro ⟨_, ⟨decides, rfl⟩, rfl⟩
    exact ⟨_, ⟨decides, rfl⟩, by rw [shown, kept_window twins.list]⟩

/-- A stored list relation and one that is computed from what it stores are rendered alike: neither
succeeds, or each record gets the same value for both. -/
theorem renderColumn_twins (e : Engine) (ctx : Context) (fuel : Nat) {b : Batch} {scope : Scope}
    {n : Query} {link source target : String} {related : Resource} {records : List Record}
    (twins : f.Twins g c) (linked : f.link? = some link)
    (nests : Nests ctx scope b.level f n) (nests' : Nests ctx scope b.level g n)
    (resolved : e.server.resolveLink b.resource.space link = some related)
    (joins : e.Joins b.resource related c source target)
    (rows : b.records = records.map some) (sub : records ⊆ e.store.records source)
    (strict : ∀ keys, e.prepareSort related n.sort = .ok keys →
      keys = [] ∨ StrictlyOrders keys (e.store.records target))
    (named : c ∉ ["fields", "request", "query"]) (bare : Expr.unquoted? c = none)
    (plain : ∀ record ∈ e.store.records target, record.Plain related.idKey)
    (near : ∀ t, e.target ctx b.resource f link b.level = .ok t → ∀ record ∈ e.store.records target,
      t.Near c records record → ∃ keep, Store.isMatch (conjoin t.predicates) record = .ok keep) :
    (e.renderColumn ctx (e.render ctx fuel) scope b f).outcome.toOption =
      (e.renderColumn ctx (e.render ctx fuel) scope b g).outcome.toOption := by
  have hlinked : g.link? = some link := by rw [Field.link?, twins.type, ← Field.link?, linked]
  have list : g.isList = f.isList := by rw [Field.isList, twins.type, ← Field.isList]
  have alike : ctx.query.Alike (b.level.enter f.name) (b.level.enter g.name) :=
    Query.alike_of_scope (Query.below_enter nests.below _) (Query.below_enter nests.below _) nests.entered
      nests'.entered
  have holds (record : Record) := fieldValue_twins ctx b.resource twins joins.lists.undotted named bare
    record
  have held : b.records.mapM (fieldValue ctx b.resource g) =
      b.records.mapM (fieldValue ctx b.resource f) := by
    refine Except.mapM_congr fun record hrecord => ?_
    obtain ⟨record, -, rfl⟩ := List.mem_map.mp (rows ▸ hrecord)
    rw [(holds record).1, (holds record).2]
  have values_eq {values : List Value} (h : b.records.mapM (fieldValue ctx b.resource f) = .ok values) :
      values = records.map fun record => (record.get? c).getD .null := by
    rw [((Except.mapM_eq_ok_map Value.null).mp h).2, rows, List.map_map]
    refine List.map_congr_left fun record _ => ?_
    rw [Function.comp_apply, (holds record).1]
    rfl
  -- the loads are compared for the target of either twin, as they do not read where it is
  have loads {own : Field} {t : Target}
      (entered : ctx.query.scope (b.level.enter own.name) = .ok (.state n))
      (ht : e.target ctx b.resource own link b.level = .ok t)
      (near : ∀ record ∈ e.store.records target, t.Near c records record →
        ∃ keep, Store.isMatch (conjoin t.predicates) record = .ok keep) :
      e.LoadAlike b.resource f g t (records.map some)
        (records.map fun record => (record.get? c).getD .null) := by
    obtain ⟨_, below, settled⟩ := target_eq_ok.mp ht
    obtain rfl : related = t.resource := Option.some.inj (resolved.symm.trans settled.resolved)
    obtain rfl : target = t.source := Option.some.inj (joins.keptTargets.symm.trans settled.stored)
    obtain rfl : .state n = below :=
      Except.ok.inj (entered.symm.trans (settled.entered ▸ settled.governed))
    exact loadTargets_twins twins joins sub (strict t.sort settled.sorted) plain near
  refine Option.ext fun column => ?_
  rw [Except.toOption_eq_some, Except.toOption_eq_some, outcome_renderColumn_deep nests.deep linked,
    outcome_renderColumn_deep nests'.deep hlinked, held]
  refine exists_congr fun values => and_congr_right fun hvalues => ?_
  obtain rfl := values_eq hvalues
  rw [rows]
  constructor
  · refine renderRelated_alike twins.can list alike (fun t groups ht hgroups => ?_)
      (render_alike alike fuel)
    exact (loads nests.entered ht (near t ht) _).mp ⟨groups, hgroups, rfl⟩
  · refine renderRelated_alike twins.can.symm list.symm alike.symm (fun t groups ht hgroups => ?_)
      (render_alike alike.symm fuel)
    have near := near (t.at (b.level.enter f.name)) (target_alike twins.can.symm alike.symm ht)
    exact (loads nests'.entered ht near _).mpr ⟨groups, hgroups, rfl⟩

end Engine

/-! A reader who wants books -/

namespace Shelf

/-- The books that a reader wants. -/
def wants : Field := { loans with name := "wants", source := .path "wants" }

/-- The same books, computed from what is stored with the reader. -/
def wished : Field := { loans with name := "wished", source := .expression (.node "get" (.str "wants")) }

def wisher : Resource := { reader with fields := [wants, wished] }

def wanting (ids : List Value) : Record := [("id", .str "r"), ("wants", .arr ids)]

def wishing (books : List Record) (ids : List Value) : Engine where
  server := { spaces := [("library", ⟨"library", [("book", catalogued "id"), ("reader", wisher)]⟩)] }
  store := [("books", books), ("readers", [wanting ids])]
  settings := {}

/-- Both relations under one nested state. -/
def wish (n : Query) : Context where
  query := { space := some "library", resource := some "reader",
             take := some [("wants", .nested n), ("wished", .nested n)] }
  request := .null

def wishers (ids : List Value) : Batch :=
  ⟨none, wisher, [wants, wished], [some (wanting ids)], Level.root⟩

theorem twins_wants : wants.Twins wished "wants" where
  stored := rfl
  computed := rfl
  type := rfl
  can := rfl
  list := by decide
  default := ⟨rfl, rfl⟩
  inverse := rfl

theorem nests_wants (n : Query) : Engine.Nests (wish n) (.state (wish n).query) Level.root wants n where
  below := rfl
  deep := rfl
  entered := rfl

theorem nests_wished (n : Query) : Engine.Nests (wish n) (.state (wish n).query) Level.root wished n where
  below := rfl
  deep := rfl
  entered := rfl

/-- Books that are known by ids of the kind that a reader wants. -/
theorem joins_wishing (books : List Record) (ids : List Value) (keyed : Keyed "id" books)
    (nodup : ids.Nodup) (uniform : UniformIds (books.filterMap (·.get? "id") ++ ids)) :
    (wishing books ids).Joins wisher (catalogued "id") "wants" "readers" "books" := by
  have readers : (wishing books ids).store.records "readers" = [wanting ids] := rfl
  exact {
    kept := rfl
    keptTargets := rfl
    stored := ⟨_, rfl⟩
    storedTargets := ⟨_, rfl⟩
    keyed := ⟨by decide, by rw [readers]; exact List.forall_mem_singleton.mpr rfl,
      by rw [readers]; exact List.nodup_singleton _⟩
    keyedTargets := keyed
    lists := {
      undotted := by decide
      lists := by rw [readers]; exact List.forall_mem_singleton.mpr (.inr rfl)
      nodup := by rw [readers]; exact List.forall_mem_singleton.mpr nodup
      uniform := by rw [readers, List.flatMap_singleton]; exact uniform } }

/-- A book that is known by its id. -/
def titled (id title : Value) : Record := [("id", id), ("meta", .node "title" title)]

theorem plain_titled (id title : Value) : (titled id title).Plain "id" := by
  intro v hv
  rw [Record.refer_eq (by decide) (by decide) (by decide) (by decide)]
  cases hv
  rfl

def novels : List Record := [titled (.str "a") (.str "Emma"), titled (.str "b") (.str "Sanditon")]

/-- Two books whose ids are the same as doubles, one of them with a number for its title. -/
def volumes : List Record :=
  [titled (.uint 9007199254740993) (.str "Emma"), titled (.uint 9007199254740992) (.uint 5)]

/-- Only books whose title has a length. -/
def lengthy : Query := { filter := some (.node "length" (.str "title")) }

end Shelf

/-- Both relations of a reader give the one book that is there of two that the reader wants. -/
theorem Engine.renderColumn_twins_wants :
    let e := Shelf.wishing Shelf.novels [.str "b", .str "c"]
    let ctx := Shelf.wish {}
    let b := Shelf.wishers [.str "b", .str "c"]
    ∃ column, (e.renderColumn ctx (e.render ctx 1) (.state ctx.query) b Shelf.wants).outcome =
        .ok column ∧
      (e.renderColumn ctx (e.render ctx 1) (.state ctx.query) b Shelf.wished).outcome = .ok column := by
  intro e ctx b
  have uniform : UniformIds [.str "a", .str "b", .str "b", .str "c"] := .inl (by simp)
  have joins := Shelf.joins_wishing Shelf.novels [.str "b", .str "c"]
    ⟨by decide, by decide, by decide⟩ (by simp) uniform
  have plain : ∀ record ∈ Shelf.novels, record.Plain "id" := by
    simp [Shelf.novels, Shelf.plain_titled]
  have texts : ∀ record ∈ [Shelf.wanting [.str "b", .str "c"]], ∀ id ∈ record.listed "wants",
      ∃ s, id = .str s := by
    rw [List.forall_mem_singleton]
    change ∀ id ∈ [Value.str "b", .str "c"], _
    simp
  have same := renderColumn_twins e ctx 1 (b := b) Shelf.twins_wants rfl (Shelf.nests_wants {})
    (Shelf.nests_wished {}) rfl joins rfl (List.Subset.refl _) (by rintro keys ⟨⟩; exact .inl rfl)
    (by decide) (by decide) plain fun t _ record _ near =>
      absurd near (Target.not_near_of_texts texts record)
  have shown : (e.renderColumn ctx (e.render ctx 1) (.state ctx.query) b
      Shelf.wants).outcome.toOption.isSome := by decide +kernel
  obtain ⟨column, hcolumn⟩ := Option.isSome_iff_exists.mp shown
  exact ⟨column, Except.toOption_eq_some.mp hcolumn,
    Except.toOption_eq_some.mp (same.symm.trans hcolumn)⟩

/-- Of two books whose ids are the same as doubles, a reader wants one. It is given through the store; the
computed relation fails on the other, whose title has no length. -/
theorem Engine.renderColumn_twins_close :
    let e := Shelf.wishing Shelf.volumes [.uint 9007199254740993]
    let ctx := Shelf.wish Shelf.lengthy
    let b := Shelf.wishers [.uint 9007199254740993]
    Shelf.wants.Twins Shelf.wished "wants" ∧
      Nests ctx (.state ctx.query) b.level Shelf.wants Shelf.lengthy ∧
      Nests ctx (.state ctx.query) b.level Shelf.wished Shelf.lengthy ∧
      e.Joins Shelf.wisher (Shelf.catalogued "id") "wants" "readers" "books" ∧
      Shelf.lengthy.sort = none ∧ (∀ record ∈ e.store.records "books", record.Plain "id") ∧
      (e.renderColumn ctx (e.render ctx 1) (.state ctx.query) b Shelf.wants).outcome.toOption.isSome ∧
      (e.renderColumn ctx (e.render ctx 1) (.state ctx.query) b Shelf.wished).outcome.toOption =
        none := by
  intro e ctx b
  have uniform : UniformIds [.uint 9007199254740993, .uint 9007199254740992, .uint 9007199254740993] :=
    .inr (by simp only [List.forall_mem_cons]; exact ⟨⟨_, _, rfl⟩, ⟨_, _, rfl⟩, ⟨_, _, rfl⟩, by simp⟩)
  have joins := Shelf.joins_wishing Shelf.volumes [.uint 9007199254740993]
    ⟨by decide, by decide, by decide +kernel⟩ (List.nodup_singleton _) uniform
  have plain : ∀ record ∈ Shelf.volumes, record.Plain "id" := by
    simp [Shelf.volumes, Shelf.plain_titled]
  have shown : (e.renderColumn ctx (e.render ctx 1) (.state ctx.query) b
      Shelf.wants).outcome.toOption.isSome := by decide +kernel
  have fails : (e.renderColumn ctx (e.render ctx 1) (.state ctx.query) b
      Shelf.wished).outcome.toOption.isNone := by decide +kernel
  exact ⟨Shelf.twins_wants, Shelf.nests_wants _, Shelf.nests_wished _, joins, rfl, plain, shown,
    Option.isNone_iff_eq_none.mp fails⟩

end RecordGraph
