import RecordGraph.Proofs.Run.Keyset
import RecordGraph.Proofs.Store.Preorder

/-!
Cursors against the order of a list. The predicate of a cursor that holds the values of a record asks
for more in every field that is sorted by. These are the records behind it in the order of the list if
only one column is sorted by, upward; any other keys skip some of them, or go back.
-/
namespace RecordGraph

/-! Columns without nulls -/

/-- The column at a path holds values of one kind, and no null. -/
structure Full (records : List Record) (path : String) : Prop where
  oneKind : OneKind records path
  held : ∀ record ∈ records, record.held path ≠ .null

section order
variable {keys : List SortKey} {a b : Record} {path : String}

theorem Record.read_of_held (h : a.held path ≠ .null) : a.read path = some (a.held path) := by
  cases hread : a.read path with
  | none => exact absurd (by rw [held, hread]; rfl) h
  | some v => rw [held, hread, Option.getD_some]

theorem Record.held_ne_null_of_text {t : String} (h : a.held path = .str t) : a.held path ≠ .null := by
  rw [h]
  intro hnull
  cases hnull

theorem orderColumn_held (ha : a.held path ≠ .null) (hb : b.held path ≠ .null) :
    orderColumn (a.read path) (b.read path) = (Expr.order (a.held path) (b.held path)).getD .eq := by
  rw [Record.read_of_held ha, Record.read_of_held hb, orderColumn, rank_some ha, rank_some hb]
  rfl

/-- Upward, a record comes behind another in a column if it exceeds what the other holds there. -/
theorem SortKey.order_eq_gt {key : SortKey} (upward : key.descending = false) (ha : a.held key.path ≠ .null)
    (hb : b.held key.path ≠ .null) : key.order a b = .gt ↔ a.exceeds key.path (b.held key.path) := by
  rw [SortKey.order, upward, orderColumn_held ha hb, Record.exceeds, decide_eq_true_iff]
  cases Expr.order (a.held key.path) (b.held key.path) <;> simp

/-- Keys of one column do not part records that tie in it. -/
theorem orderRecords_of_tie (same : ∀ key ∈ keys, key.path = path)
    (tie : orderColumn (a.read path) (b.read path) = .eq) : orderRecords keys a b = .eq := by
  induction keys with
  | nil => rfl
  | cons key keys ih =>
    rw [List.forall_mem_cons] at same
    have first : key.order a b = .eq := by
      rw [SortKey.order, same.1, tie]
      cases key.descending <;> rfl
    rw [orderRecords_cons, first, ih same.2]
    rfl

/-- Keys of one column put a record behind another if the first of them does. -/
theorem orderRecords_cons_of_same {key : SortKey} (same : ∀ other ∈ keys, other.path = key.path) :
    orderRecords (key :: keys) a b = .gt ↔ key.order a b = .gt := by
  rw [orderRecords_cons]
  cases first : key.order a b with
  | eq =>
    have tie : orderColumn (a.read key.path) (b.read key.path) = .eq := by
      rw [SortKey.order] at first
      revert first
      cases key.descending <;> cases orderColumn (a.read key.path) (b.read key.path) <;> simp
    rw [orderRecords_of_tie same tie]
    rfl
  | lt | gt => rfl

end order

/-! The cursor of a record -/

/-- What a record holds in the fields that texts sort by. -/
def Server.marks (s : Server) (r : Resource) (sort : List String) (record : Record) : Entries Value :=
  Entries.ofList (sort.filterMap fun text =>
    let name := (SortKey.ofText text).path
    (s.storagePath r name).toOption.map fun path => (name, record.held path))

section marks
variable {s : Server} {r : Resource} {sort : List String} {keys : List SortKey} {c : Record}

theorem Server.mem_marks {name : String} {v : Value} : (name, v) ∈ s.marks r sort c ↔
    ∃ text ∈ sort, ∃ path, (SortKey.ofText text).path = name ∧ s.storagePath r name = .ok path ∧
      v = c.held path := by
  rw [marks, Entries.mem_ofList_of_keys fun name => ((s.storagePath r name).toOption.map c.held).getD .null]
  · simp only [List.mem_filterMap, Option.map_eq_some_iff, Except.toOption_eq_some, Prod.mk.injEq]
    constructor
    · rintro ⟨text, htext, path, hpath, rfl, rfl⟩
      exact ⟨text, htext, path, rfl, hpath, rfl⟩
    · rintro ⟨text, htext, path, rfl, hpath, rfl⟩
      exact ⟨text, htext, path, hpath, rfl, rfl⟩
  · intro e he
    obtain ⟨text, -, hpair⟩ := List.mem_filterMap.mp he
    obtain ⟨path, hpath, rfl⟩ := Option.map_eq_some_iff.mp hpair
    simp [hpath]

theorem Server.mem_sortKeys (sorted : s.sortKeys r sort = .ok keys) {path : String} :
    (∃ key ∈ keys, key.path = path) ↔
      ∃ text ∈ sort, s.storagePath r (SortKey.ofText text).path = .ok path := by
  have pairs := Except.mapM_eq_ok.mp sorted
  simp only [Except.map_eq_ok] at pairs
  constructor
  · rintro ⟨key, hkey, rfl⟩
    obtain ⟨text, htext, path, hpath, rfl⟩ := pairs.exists_left hkey
    exact ⟨text, htext, hpath⟩
  · rintro ⟨text, htext, hpath⟩
    obtain ⟨key, hkey, path', hpath', rfl⟩ := pairs.flip.exists_left htext
    exact ⟨_, hkey, Except.ok.inj (hpath'.symm.trans hpath)⟩

/-- To exceed what the cursor of a record holds is to exceed the record in every column sorted by. -/
theorem Server.all_marks (sorted : s.sortKeys r sort = .ok keys) (record : Record) :
    ((s.marks r sort c).all fun e => record.exceeds ((s.storagePath r e.1).toOption.getD "") e.2) =
      keys.all fun key => record.exceeds key.path (c.held key.path) := by
  rw [Bool.eq_iff_iff, List.all_eq_true, List.all_eq_true]
  constructor
  · intro h key hkey
    obtain ⟨text, htext, hpath⟩ := (mem_sortKeys sorted).mp ⟨key, hkey, rfl⟩
    have exceeds := h _ (mem_marks.mpr ⟨text, htext, key.path, rfl, hpath, rfl⟩)
    rwa [hpath] at exceeds
  · rintro h ⟨name, v⟩ he
    obtain ⟨text, htext, path, rfl, hpath, rfl⟩ := mem_marks.mp he
    obtain ⟨key, hkey, rfl⟩ := (mem_sortKeys sorted).mpr ⟨text, htext, hpath⟩
    rw [hpath]
    exact h key hkey

end marks

/-! The predicate of a cursor -/

/-- Joined predicates are translated one by one. -/
theorem Server.toStorage_conjoin {s : Server} {r : Resource} {ps qs : List Value}
    (translated : ps.mapM (s.toStorage r) = .ok qs) {p : Value} (joined : conjoin ps = some p) :
    ∃ q, s.toStorage r p = .ok q ∧ conjoin qs = some q := by
  have each := Except.mapM_eq_ok.mp translated
  rcases each with _ | ⟨first, _ | ⟨second, rest⟩⟩
  · cases joined
  · cases joined
    exact ⟨_, first, rfl⟩
  · cases joined
    rw [toStorage_node _ _ (by decide), Server.toStorage, toStorageItems_eq, translated]
    exact ⟨_, rfl, rfl⟩

namespace Engine
variable {e : Engine} {r : Resource} {sort : List String} {keys : List SortKey} {c : Record}

/-- The predicate of the cursor of a record selects what exceeds the record in every column sorted by. -/
theorem keysetStorage_marks (filled : sort ≠ []) (sorted : e.server.sortKeys r sort = .ok keys)
    (columns : ∀ text ∈ sort, ∃ path, e.server.IsColumn r (SortKey.ofText text).path path)
    (mapless : ∀ key ∈ keys, (c.held key.path).isMapless) (size offset : UInt64) :
    ∃ p, e.keysetStorage r ⟨size, offset, some (.keyset (e.server.marks r sort c))⟩ true = .ok [p] ∧
      ∀ record, Store.isMatch (some p) record =
        .ok (keys.all fun key => record.exceeds key.path (c.held key.path)) := by
  have each : ∀ x ∈ e.server.marks r sort c, ∃ q, e.server.toStorage r (exceeding x.1 x.2) = .ok q ∧
      ∀ record, Store.isMatch (some q) record =
        .ok (record.exceeds ((e.server.storagePath r x.1).toOption.getD "") x.2) := by
    rintro ⟨name, v⟩ hx
    obtain ⟨text, htext, path, rfl, hpath, rfl⟩ := Server.mem_marks.mp hx
    obtain ⟨path', column⟩ := columns text htext
    obtain rfl : path' = path := Except.ok.inj (column.stored.symm.trans hpath)
    obtain ⟨key, hkey, rfl⟩ := (Server.mem_sortKeys sorted).mpr ⟨text, htext, hpath⟩
    refine ⟨_, column.toStorage_exceeding (mapless key hkey), fun record => ?_⟩
    rw [hpath]
    exact column.isMatch_exceeding (mapless key hkey) record
  obtain ⟨qs, hqs, selects⟩ := Except.mapM_ok each
  have translated : ((e.server.marks r sort c).map fun x => exceeding x.1 x.2).mapM
      (e.server.toStorage r) = .ok qs := by
    rw [List.mapM_map]
    exact hqs
  have some_ : e.server.marks r sort c ≠ [] := by
    obtain ⟨text, more, rfl⟩ := List.exists_cons_of_ne_nil filled
    obtain ⟨path, column⟩ := columns text List.mem_cons_self
    exact List.ne_nil_of_mem
      (Server.mem_marks.mpr ⟨text, List.mem_cons_self, path, rfl, column.stored, rfl⟩)
  obtain ⟨p, hp⟩ := Store.exists_conjoin (List.map_eq_nil_iff.not.mpr some_)
  obtain ⟨q, stored, hq⟩ := Server.toStorage_conjoin translated hp
  refine ⟨q, ?_, fun record => ?_⟩
  · have predicate : Window.keysetPredicate ⟨size, offset, some (.keyset (e.server.marks r sort c))⟩ =
        some p := hp
    unfold keysetStorage
    rw [predicate]
    dsimp only
    rw [stored]
    rfl
  · rw [← hq, ← Server.all_marks sorted]
    exact Store.isMatch_conjoin_of_forall₂ (selects.imp fun x q h => h record)

/-- Behind each record of a collection, its cursor selects the records that come after it under the keys. -/
def Follows (e : Engine) (r : Resource) (sort : List String) (keys : List SortKey) : Prop :=
  ∀ (records : List Record) (c : Record) (size offset : UInt64), c ∈ records →
    (∀ key ∈ keys, Full records key.path) → (∀ key ∈ keys, (c.held key.path).isMapless) →
    ∃ p, e.keysetStorage r ⟨size, offset, some (.keyset (e.server.marks r sort c))⟩ true = .ok [p] ∧
      Store.select (some p) records = .ok (records.filter fun record => orderRecords keys record c = .gt)

section follows
variable (filled : sort ≠ []) (sorted : e.server.sortKeys r sort = .ok keys)
  (columns : ∀ text ∈ sort, ∃ path, e.server.IsColumn r (SortKey.ofText text).path path)
include filled sorted columns

theorem follows_iff : e.Follows r sort keys ↔ ∀ (records : List Record), ∀ c ∈ records,
    (∀ key ∈ keys, Full records key.path) → (∀ key ∈ keys, (c.held key.path).isMapless) →
    ∀ record ∈ records, (∀ key ∈ keys, record.exceeds key.path (c.held key.path)) ↔
      orderRecords keys record c = .gt := by
  constructor
  · intro follows records c hc full mapless record hrecord
    obtain ⟨p, hp, selected⟩ := follows records c 0 0 hc full mapless
    obtain ⟨p', hp', selects⟩ := keysetStorage_marks filled sorted columns mapless 0 0
    obtain rfl : p = p' := List.singleton_inj.mp (Except.ok.inj (hp.symm.trans hp'))
    rw [Store.select_eq_ok_filter fun record _ => selects record] at selected
    have same := congrArg (record ∈ ·) (Except.ok.inj selected)
    simpa [hrecord] using same
  · intro agree records c size offset hc full mapless
    obtain ⟨p, hp, selects⟩ := keysetStorage_marks filled sorted columns mapless size offset
    refine ⟨p, hp, Store.select_eq_ok_filter fun record hrecord => ?_⟩
    rw [selects, Except.ok.injEq, Bool.eq_iff_iff, List.all_eq_true, decide_eq_true_iff]
    exact agree records c hc full mapless record hrecord

end follows

/-- Records can hold any texts in columns of which none leads on from another. -/
theorem exists_held (paths : ∀ key ∈ keys, "" ∉ Text.pieces '.' key.path)
    (apart : ∀ key ∈ keys, ∀ other ∈ keys,
      Text.pieces '.' key.path <+: Text.pieces '.' other.path → key.path = other.path)
    (text : List String → String) :
    ∃ record : Record, ∀ key ∈ keys, record.held key.path = .str (text (Text.pieces '.' key.path)) := by
  have segments : ∀ path ∈ keys.map fun key => Text.pieces '.' key.path,
      ∃ key ∈ keys, Text.pieces '.' key.path = path := fun path hpath => List.mem_map.mp hpath
  obtain ⟨record, hrecord⟩ := exists_record_along (keys.map fun key => Text.pieces '.' key.path)
    (fun h => by
      obtain ⟨key, -, hnil⟩ := segments [] h
      exact Text.pieces_ne_nil '.' key.path hnil)
    (fun path hpath other hother h => by
      obtain ⟨key, hkey, rfl⟩ := segments path hpath
      obtain ⟨key', hkey', rfl⟩ := segments other hother
      rw [apart key hkey key' hkey' h]) text
  refine ⟨record, fun key hkey => ?_⟩
  have along := hrecord _ (List.mem_map_of_mem hkey)
  rw [Record.held, Record.read_eq_descend record (paths key hkey), Value.descend_of_along? along,
    Option.getD_some]

theorem full_of_texts {records : List Record} {path : String}
    (texts : ∀ record ∈ records, ∃ t, record.held path = .str t) : Full records path where
  oneKind := by
    refine ⟨"string", fun record hrecord v hv => .inr ?_⟩
    obtain ⟨t, ht⟩ := texts record hrecord
    rw [Record.held, hv, Option.getD_some] at ht
    rw [ht]
    rfl
  held := by
    intro record hrecord
    obtain ⟨t, ht⟩ := texts record hrecord
    exact Record.held_ne_null_of_text ht

/-! Keys that do not follow -/

section necessary
variable {first : SortKey} {rest : List SortKey} (filled : sort ≠ [])
  (sorted : e.server.sortKeys r sort = .ok (first :: rest))
  (columns : ∀ text ∈ sort, ∃ path, e.server.IsColumn r (SortKey.ofText text).path path)
  (apart : ∀ key ∈ first :: rest, ∀ other ∈ first :: rest,
    Text.pieces '.' key.path <+: Text.pieces '.' other.path → key.path = other.path)
include filled sorted columns apart

/-- Two records can hold any texts in the columns, and following says how they compare. -/
theorem Follows.compared (follows : e.Follows r sort (first :: rest)) (low high : List String → String) :
    ∃ c record : Record,
      (∀ key ∈ first :: rest, c.held key.path = .str (low (Text.pieces '.' key.path))) ∧
      (∀ key ∈ first :: rest, record.held key.path = .str (high (Text.pieces '.' key.path))) ∧
      ((∀ key ∈ first :: rest, record.exceeds key.path (c.held key.path)) ↔
        orderRecords (first :: rest) record c = .gt) := by
  have paths : ∀ key ∈ first :: rest, "" ∉ Text.pieces '.' key.path := by
    intro key hkey
    obtain ⟨text, htext, hpath⟩ := (Server.mem_sortKeys sorted).mp ⟨key, hkey, rfl⟩
    obtain ⟨path, column⟩ := columns text htext
    obtain rfl : path = key.path := Except.ok.inj (column.stored.symm.trans hpath)
    exact column.filled
  obtain ⟨c, hc⟩ := exists_held paths apart low
  obtain ⟨record, hrecord⟩ := exists_held paths apart high
  refine ⟨c, record, hc, hrecord, (follows_iff filled sorted columns).mp follows [c, record] c (by simp)
    (fun key hkey => full_of_texts ?_) (fun key hkey => by rw [hc key hkey]; rfl) record (by simp)⟩
  simpa using ⟨⟨_, hc key hkey⟩, ⟨_, hrecord key hkey⟩⟩

/-- Downward, a record that exceeds another in every column comes before it. -/
theorem Follows.upward (follows : e.Follows r sort (first :: rest)) : first.descending = false := by
  by_contra down
  obtain ⟨c, record, hc, hrecord, agree⟩ :=
    follows.compared filled sorted columns apart (fun _ => "a") fun _ => "b"
  have behind := agree.mp fun key hkey => by
    rw [Record.exceeds, hc key hkey, hrecord key hkey]
    decide
  have before : first.order record c = .lt := by
    have hfirst := hc first List.mem_cons_self
    have hfirst' := hrecord first List.mem_cons_self
    rw [SortKey.order, orderColumn_held (Record.held_ne_null_of_text hfirst')
      (Record.held_ne_null_of_text hfirst), hfirst, hfirst', Bool.eq_true_of_not_eq_false down]
    decide
  rw [orderRecords_cons, before] at behind
  cases behind

/-- A record that exceeds another in the first column and ties in a second comes after it. -/
theorem Follows.one_column (follows : e.Follows r sort (first :: rest)) :
    ∀ key ∈ rest, key.path = first.path := by
  by_contra other
  simp only [not_forall] at other
  obtain ⟨key, hkey, other⟩ := other
  have hkey' := List.mem_cons_of_mem first hkey
  obtain ⟨c, record, hc, hrecord, agree⟩ := follows.compared filled sorted columns apart (fun _ => "a")
    fun segments => if segments = Text.pieces '.' first.path then "b" else "a"
  have hfirst := hc first List.mem_cons_self
  have hfirst' := hrecord first List.mem_cons_self
  rw [if_pos rfl] at hfirst'
  have after : first.order record c = .gt := by
    rw [SortKey.order_eq_gt (follows.upward filled sorted columns apart)
      (Record.held_ne_null_of_text hfirst') (Record.held_ne_null_of_text hfirst), Record.exceeds, hfirst,
      hfirst']
    decide
  have exceeds := agree.mpr (by rw [orderRecords_cons, after]; rfl) key hkey'
  have beside : Text.pieces '.' key.path ≠ Text.pieces '.' first.path := fun h =>
    other (apart key hkey' first List.mem_cons_self (h ▸ List.prefix_rfl))
  rw [Record.exceeds, hc key hkey', hrecord key hkey', if_neg beside] at exceeds
  exact absurd exceeds (by decide)

end necessary

/-- The predicate of the cursor of a record selects what exceeds the record in every column sorted by. This
is what comes after the record if the first key goes upward and all keys are of one column; if no column
leads on from another, only then. -/
theorem keysetStorage_follows (e : Engine) {r : Resource} {sort : List String} {first : SortKey}
    {rest : List SortKey} (sorted : e.server.sortKeys r sort = .ok (first :: rest))
    (columns : ∀ text ∈ sort, ∃ path, e.server.IsColumn r (SortKey.ofText text).path path) :
    (∀ (records : List Record) (c : Record) (size offset : UInt64),
      (∀ key ∈ first :: rest, (c.held key.path).isMapless) →
      ∃ p, e.keysetStorage r ⟨size, offset, some (.keyset (e.server.marks r sort c))⟩ true = .ok [p] ∧
        Store.select (some p) records = .ok (records.filter fun record =>
          (first :: rest).all fun key => record.exceeds key.path (c.held key.path))) ∧
    (first.descending = false → (∀ key ∈ rest, key.path = first.path) →
      e.Follows r sort (first :: rest)) ∧
    ((∀ key ∈ first :: rest, ∀ other ∈ first :: rest,
        Text.pieces '.' key.path <+: Text.pieces '.' other.path → key.path = other.path) →
      e.Follows r sort (first :: rest) →
      first.descending = false ∧ ∀ key ∈ rest, key.path = first.path) := by
  have filled : sort ≠ [] := by
    rintro rfl
    cases sorted
  refine ⟨fun records c size offset mapless => ?_, fun upward same => ?_, fun apart follows => ?_⟩
  · obtain ⟨p, hp, selects⟩ := keysetStorage_marks filled sorted columns mapless size offset
    exact ⟨p, hp, Store.select_eq_ok_filter fun record _ => selects record⟩
  · refine (follows_iff filled sorted columns).mpr fun records c hc full mapless record hrecord => ?_
    have held := (full first List.mem_cons_self).held
    rw [orderRecords_cons_of_same same, SortKey.order_eq_gt upward (held record hrecord) (held c hc),
      List.forall_mem_cons]
    exact and_iff_left_of_imp fun h key hkey => by rwa [same key hkey]
  · exact ⟨follows.upward filled sorted columns apart, follows.one_column filled sorted columns apart⟩

end Engine

/-! Grains by their mass and their kind -/

namespace Lab

def kind : Field := { mass with name := "kind", source := .path "kind" }

def sample : Resource := { grain with fields := [mass, kind] }

def samples : Engine where
  server := { spaces := [("lab", ⟨"lab", [("grain", sample)]⟩)] }
  store := []
  settings := {}

theorem isColumn_mass : samples.server.IsColumn sample "mass" "mass" where
  stored := rfl
  named := by decide
  unrooted := by decide
  unquoted := by decide
  filled := by decide
  unscoped := by decide
  bare := by decide

/-- A grain of a mass and a kind. -/
def weighed (mass : UInt64) (kind : String) : Record := [("kind", .str kind), ("mass", .uint mass)]

end Lab

/-- Behind a grain come the heavier ones, also if the mass is sorted by twice. -/
theorem Engine.keysetStorage_follows_mass :
    let sort := ["mass", "-mass"]
    let keys : List SortKey := [⟨"mass", false⟩, ⟨"mass", true⟩]
    let grains := [Lab.weighed 1 "rye", Lab.weighed 2 "rye", Lab.weighed 3 "oat"]
    Lab.samples.server.sortKeys Lab.sample sort = .ok keys ∧
      (∀ text ∈ sort, ∃ path,
        Lab.samples.server.IsColumn Lab.sample (SortKey.ofText text).path path) ∧
      Lab.samples.Follows Lab.sample sort keys ∧
      ∃ p, Lab.samples.keysetStorage Lab.sample ⟨1, 0, some (.keyset (Lab.samples.server.marks Lab.sample
          sort (Lab.weighed 2 "rye")))⟩ true = .ok [p] ∧
        Store.select (some p) grains = .ok (grains.filter fun record =>
          keys.all fun key => record.exceeds key.path (.uint 2)) := by
  intro sort keys grains
  have sorted : Lab.samples.server.sortKeys Lab.sample sort = .ok keys := rfl
  have columns : ∀ text ∈ sort, ∃ path,
      Lab.samples.server.IsColumn Lab.sample (SortKey.ofText text).path path := by
    simp only [sort, List.mem_cons, List.not_mem_nil, or_false]
    rintro text (rfl | rfl) <;> exact ⟨"mass", Lab.isColumn_mass⟩
  obtain ⟨selects, follows, -⟩ := keysetStorage_follows Lab.samples sorted columns
  obtain ⟨p, hp, selected⟩ := selects grains (Lab.weighed 2 "rye") 1 0 (by decide)
  exact ⟨sorted, columns, follows rfl (by simp), p, hp, selected⟩

/-- Behind the second of three grains, from the heaviest on, comes the lightest, but its cursor selects the
heaviest. By mass and kind, the heaviest comes behind it, and is not selected. -/
theorem Engine.keysetStorage_follows_not :
    let grains := [Lab.weighed 1 "rye", Lab.weighed 2 "rye", Lab.weighed 3 "oat"]
    let selects (sort : List String) (found : List Bool) : Prop :=
      ∃ p, Lab.samples.keysetStorage Lab.sample ⟨1, 0, some (.keyset (Lab.samples.server.marks Lab.sample sort
          (Lab.weighed 2 "rye")))⟩ true = .ok [p] ∧
        grains.map (fun record => (Store.isMatch (some p) record).toOption) = found.map some
    let orders (sort : List String) (compared : List Ordering) : Prop :=
      ∃ keys, Lab.samples.server.sortKeys Lab.sample sort = .ok keys ∧
        grains.map (fun record => orderRecords keys record (Lab.weighed 2 "rye")) = compared
    selects ["-mass"] [false, false, true] ∧ orders ["-mass"] [.gt, .eq, .lt] ∧
      selects ["mass", "kind"] [false, false, false] ∧ orders ["mass", "kind"] [.lt, .eq, .gt] := by
  refine ⟨⟨_, rfl, ?_⟩, ⟨_, rfl, ?_⟩, ⟨_, rfl, ?_⟩, ⟨_, rfl, ?_⟩⟩
  all_goals decide +kernel

end RecordGraph
