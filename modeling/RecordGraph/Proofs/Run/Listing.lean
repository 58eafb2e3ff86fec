import RecordGraph.Proofs.Page.Window
import RecordGraph.Proofs.Run.Get
import RecordGraph.Proofs.Run.Indifferent
import RecordGraph.Proofs.Run.Rows
import RecordGraph.Proofs.Store.Memory

/-!
Lists. The records of a list do not depend on the page; the page cuts its rows out of them and says
where the list goes on.
-/
namespace RecordGraph

/-- No entry of `take` is a nested state. -/
def Query.Flat (q : Query) : Prop :=
  ∀ ts, q.take = some ts → ∀ name state, (name, .nested state) ∉ ts

namespace Window
variable {w : Window}

/-- A window that begins at a position. -/
def IsPositional (w : Window) : Prop := ∀ after, w.cursor ≠ some (.keyset after)

/-- The part of a list that a window shows. -/
def cut (w : Window) (matched : List Record) : List Record :=
  (matched.drop w.offset.toNat).take w.size.toNat

/-- Where a list goes on behind a window, if it does. -/
def rest (w : Window) (total : Option Nat) (matched : List Record) : Entries PageMeta :=
  if w.offset.toNat + w.size.toNat < matched.length then
    [("data", ⟨(Cursor.offset (w.offset + w.size)).encode, total⟩)]
  else []

theorem IsPositional.keysetPredicate (h : w.IsPositional) : w.keysetPredicate = none := by
  unfold Window.keysetPredicate
  split
  · exact absurd ‹_› (h _)
  · rfl

theorem IsPositional.next (h : w.IsPositional) (last : Option (Entries Value)) :
    w.next last = .offset (w.offset + w.size) := by
  unfold Window.next
  split
  · exact absurd ‹_› (h _)
  · rfl

end Window

namespace Engine
variable {e : Engine} {ctx : Context} {r : Resource} {w : Window}

theorem keysetValues_positional (h : w.IsPositional) (last : Option Record) :
    e.keysetValues r w last = .ok none := by
  unfold keysetValues
  split
  · exact absurd ‹_› (h _)
  · rfl

/-- One record more than the page tells whether the list goes on. -/
theorem turnPage_window (e : Engine) (r : Resource) (h : w.IsPositional) {matched : List Record}
    (total : Option Nat) (counted : matched.length < UInt64.size) :
    e.turnPage r w none ⟨Store.window w.offset (some w.limit) matched, total⟩ =
      .ok (w.cut matched, w.rest total matched) := by
  have hsize := w.size.toNat_lt_size
  have hlimit : w.limit.toNat = min (w.size.toNat + 1) (UInt64.size - 1) := Window.toNat_oneMore w.size
  have hcut : (Store.window w.offset (some w.limit) matched).take w.size.toNat = w.cut matched := by
    rw [Store.window, Window.cut, List.take_take]
    congr 1
    omega
  have hlength : (Store.window w.offset (some w.limit) matched).length =
      min w.limit.toNat (matched.length - w.offset.toNat) := by
    rw [Store.window, List.length_take, List.length_drop]
  unfold turnPage Window.rest
  dsimp only
  by_cases hmore : w.offset.toNat + w.size.toNat < matched.length
  · rw [if_neg (by omega), if_pos hmore, keysetValues_positional h, hcut, Except.ok_map, h.next]
    rfl
  · rw [if_pos (by omega), if_neg hmore, ← hcut, List.take_of_length_le (by omega)]

/-- A query for the list of a resource, with no relation followed. -/
structure IsList (e : Engine) (q : Query) (r : Resource) (source : String) : Prop where
  reads : q.action.getD .get = .get
  found : e.findResource q = .ok r
  record : q.record = none
  field : q.field = none
  stored : r.source = some source
  many : r.singleton = false
  flat : q.Flat

/-- What the pages of a list have in common: the fields they show, and the records they are cut from. -/
inductive Lists (e : Engine) (ctx : Context) (r : Resource) (source : String) :
    List Field → List Record → Prop
  | intro {access : Access} {fields : List Field} {predicates : List Value} {sort : List SortKey}
    {records found : List Record} (allowed : can r "get.resource" ctx none = .ok access)
    (opened : access.isDenied = false)
    (taken : takeFields r "get" Level.root ctx e.settings = .ok fields)
    (prepared : e.prepareAll r ctx access ctx.query.filter = .ok predicates)
    (sorted : e.prepareSort r ctx.query.sort = .ok sort)
    (stored : e.store.collection source = .ok records)
    (selected : Store.select (conjoin predicates) records = .ok found) :
    Lists e ctx r source fields (sortRecords sort found)

/-- The stored records that a list query is about: those that its permission and its filter select. -/
def matching (e : Engine) (r : Resource) (ctx : Context) : List Record :=
  match r.source, can r "get.resource" ctx none with
  | some source, .ok access =>
    ((e.store.get? source).getD []).filter fun record =>
      ∀ predicate ∈ access.predicate?.toList ++ ctx.query.filter.toList,
        e.Selects r ctx predicate record
  | _, _ => []

theorem Lists.perm {source : String} {fields : List Field} {matched : List Record}
    (hsource : r.source = some source) (h : e.Lists ctx r source fields matched) :
    matched.Perm (e.matching r ctx) := by
  cases h with
  | @intro access _ predicates sort records found allowed opened taken prepared sorted stored selected =>
  have hrecords : (e.store.get? source).getD [] = records := by
    unfold Store.collection at stored
    split at stored
    · rename_i hget
      cases stored
      rw [hget]
      rfl
    · cases stored
  have hmatching : e.matching r ctx = found := by
    unfold matching
    rw [hsource, allowed]
    dsimp only
    rw [hrecords]
    refine (Store.select_eq_filter selected fun record _ => ?_).symm
    rw [decide_eq_true_iff, selects_iff prepared record, Store.isMatch_conjoin]
  rw [hmatching]
  exact perm_sortRecords sort found

theorem scope_root_list {q : Query} (field : q.field = none) : q.scope Level.root = .ok (.state q) := by
  unfold Query.scope
  rw [field]
  rfl

theorem takeFields_list (action : String) (settings : Settings) (field : ctx.query.field = none) :
    takeFields r action Level.root ctx settings =
      permitted ctx.query.take r.idName action ctx settings r.fields := by
  unfold takeFields
  rw [field, scope_root_list field]
  rfl

/-- Queries that differ in their page list the same, if nothing reads the query. -/
theorem Lists.of_blind {q : Query} {request : Value} (blind : e.Blind r q request)
    (field : q.field = none) (page : Option Page) {source : String} {fields : List Field}
    {matched : List Record} (h : e.Lists ⟨q, request⟩ r source fields matched) :
    e.Lists ⟨{ q with page := page }, request⟩ r source fields matched := by
  cases h with
  | @intro access _ predicates sort records found allowed opened taken prepared sorted stored selected =>
  refine .intro ?_ opened ?_ ?_ sorted stored selected
  · rw [← allowed]
    exact indifferent_can blind.toBlind.rulesBlind "get.resource" { q with page := page } q
  · rw [← taken, takeFields_list "get" e.settings field, takeFields_list "get" e.settings field]
    exact permitted_congr fun f hf =>
      indifferent_canTakeField blind.toBlind.rulesBlind hf "get" { q with page := page } q
  · rw [← prepared]
    exact prepareAll_congr (blind.permission access allowed) blind.filter

/-- The plan of a list query reads a window of the sorted records that match. -/
theorem plan_list {access : Access} (source : String) {p : Plan} (single : r.singleton = false)
    (record : ctx.query.record = none) (field : ctx.query.field = none)
    (hw : Window.ofPage ctx.query.page e.settings.pageSize = .ok w) (positional : w.IsPositional) :
    e.plan ctx r .resource access source = .ok p ↔
      ∃ predicates sort, e.prepareAll r ctx access ctx.query.filter = .ok predicates ∧
        e.prepareSort r ctx.query.sort = .ok sort ∧
        p = ⟨w, true, ⟨source, conjoin predicates, sort, w.offset, some w.limit,
          e.settings.pageTotal⟩⟩ := by
  have hscope := scope_root_list field
  have hkeyset : e.keysetStorage r w true = .ok [] := by
    unfold keysetStorage
    rw [positional.keysetPredicate]
  unfold plan rootPredicates
  rw [hscope]
  simp only [Except.monad_bind, Except.ok_bind, Scope.page?, Scope.state?, Option.bind_some, hw, single,
    Bool.not_false, Bool.and_true, decide_true, if_true, hkeyset, record, Option.map_none,
    Option.toList_none, List.append_nil, Bool.true_and]
  simp only [Except.monad_pure, Except.bind_eq_ok, Except.ok.injEq, exists_eq_right]
  constructor
  · rintro ⟨predicates, hpredicates, sort, hsort, rfl⟩
    exact ⟨predicates, sort, hpredicates, hsort, rfl⟩
  · rintro ⟨predicates, sort, hpredicates, hsort, rfl⟩
    exact ⟨predicates, hpredicates, sort, hsort, rfl⟩

theorem lookup_flat {q : Query} (flat : q.Flat) (name : String) (state : Query) :
    (q.take.getD []).lookup name ≠ some (.nested state) := by
  intro h
  cases htake : q.take with
  | none =>
    rw [htake] at h
    cases h
  | some ts =>
    rw [htake] at h
    exact flat ts htake _ state (Entries.mem_of_get? h)

theorem isDeep_flat (flat : ctx.query.Flat) (field : ctx.query.field = none) (f : Field)
    (level : Level) : isDeep ctx (.state ctx.query) f level = false := by
  unfold isDeep
  rw [field]
  simp only [Option.isSome_none, Bool.false_and, Bool.false_eq_true, if_false]
  split
  · exact absurd ‹_› (lookup_flat flat f.name _)
  · rfl

theorem levelBound_pos (q : Query) : ∃ fuel, e.levelBound q = fuel + 1 := by
  refine ⟨e.levelBound q - 1, (Nat.sub_add_cancel ?_).symm⟩
  exact Nat.one_le_iff_ne_zero.mpr (Nat.mul_ne_zero (by omega) (by omega))

theorem fetch_window {source : String} {predicate : Option Value} (w : Window) (sort : List SortKey)
    (count : Bool) {fetched : Fetched} :
    (e.store.runFetch ⟨source, predicate, sort, w.offset, some w.limit, count⟩).outcome = .ok fetched ↔
      ∃ records found, e.store.collection source = .ok records ∧
        Store.select predicate records = .ok found ∧
        fetched = ⟨Store.window w.offset (some w.limit) (sortRecords sort found),
          if count then some (sortRecords sort found).length else none⟩ := by
  rw [Store.runFetch, Store.answer_eq_ok, Store.fetch]
  simp only [Except.monad_bind, Except.bind_eq_ok, Except.monad_pure, Except.ok.injEq]
  constructor
  · rintro ⟨records, hrecords, found, hfound, rfl⟩
    exact ⟨records, found, hrecords, hfound, rfl⟩
  · rintro ⟨records, found, hrecords, hfound, rfl⟩
    exact ⟨records, hrecords, found, hfound, rfl⟩

theorem renderRoot_flat (flat : ctx.query.Flat) (field : ctx.query.field = none) {fields : List Field}
    {records : List Record} {rows : List Value} :
    (e.renderRoot ctx r fields (records.map some)).outcome = .ok rows ↔
      (∀ f ∈ fields, ∀ record ∈ records, ∃ v, fieldValue ctx r f (some record) = .ok v) ∧
        rows = records.map fun record => e.row ctx r fields (some record) := by
  obtain ⟨fuel, hfuel⟩ := e.levelBound_pos ctx.query
  rw [renderRoot, hfuel, render_flat field (scope_root_list field)
    fun f _ => isDeep_flat flat field f Level.root]
  simp only [List.forall_mem_map, List.map_map, Function.comp_def]

/-- A resource with a source is read if it is open and its fields can be told. -/
theorem getResource_stored {endpoint : Endpoint} {path : Option String} {source : String}
    (found : e.findResource ctx.query = .ok r) (stored : r.source = some source) {response : Response} :
    (e.getResource ctx endpoint path).outcome = .ok response ↔
      ∃ access fields, can r ("get." ++ endpoint.name) ctx none = .ok access ∧ access.isDenied = false ∧
        takeFields r "get" Level.root ctx e.settings = .ok fields ∧
        (e.readStored ctx r endpoint path access fields source).outcome = .ok response := by
  rw [getResource_eq, Run.outcome_bind]
  constructor
  · rintro ⟨o, hopen, h⟩
    obtain ⟨hr, allowed, opened, taken⟩ := opening_eq_ok.mp hopen
    obtain rfl : r = o.resource := Except.ok.inj (found.symm.trans hr)
    rw [load_stored stored, ← readStored_eq] at h
    exact ⟨o.access, o.fields, allowed, opened, taken, h⟩
  · rintro ⟨access, fields, allowed, opened, taken, h⟩
    refine ⟨⟨r, access, fields⟩, opening_eq_ok.mpr ⟨found, allowed, opened, taken⟩, ?_⟩
    rw [load_stored stored, ← readStored_eq]
    exact h

/-- What a list query answers: the rows of a page, each field with a value on each of its records. -/
theorem getResource_list {source : String} (list : e.IsList ctx.query r source)
    (hw : Window.ofPage ctx.query.page e.settings.pageSize = .ok w) (positional : w.IsPositional)
    (counted : ∀ fields matched, e.Lists ctx r source fields matched → matched.length < UInt64.size)
    {response : Response} :
    (e.getResource ctx .resource none).outcome = .ok response ↔
      ∃ fields matched, e.Lists ctx r source fields matched ∧
        (∀ f ∈ fields, ∀ record ∈ w.cut matched, ∃ v, fieldValue ctx r f (some record) = .ok v) ∧
        response = ⟨.arr ((w.cut matched).map fun record => e.row ctx r fields (some record)),
          w.rest (if e.settings.pageTotal then some matched.length else none) matched⟩ := by
  obtain ⟨-, hr, record, field, hsource, single, flat⟩ := list
  have turned (sort : List SortKey) (found : List Record) {fields : List Field}
      (lists : e.Lists ctx r source fields (sortRecords sort found)) :=
    turnPage_window e r positional
      (if e.settings.pageTotal then some (sortRecords sort found).length else none) (counted _ _ lists)
  rw [getResource_stored hr hsource]
  unfold readStored
  constructor
  · rintro ⟨access, fields, allowed, opened, taken, h⟩
    obtain ⟨p, hp, h⟩ := Run.outcome_bind.mp h
    obtain ⟨predicates, sort, prepared, sorted, rfl⟩ :=
      (plan_list source single record field hw positional).mp hp
    obtain ⟨fetched, hfetched, h⟩ := Run.outcome_bind.mp h
    obtain ⟨records, found, stored, selected, rfl⟩ := (fetch_window _ _ _).mp hfetched
    have lists : e.Lists ctx r source fields (sortRecords sort found) :=
      .intro allowed opened taken prepared sorted stored selected
    simp only [if_true] at h
    obtain ⟨page, hpage, h⟩ := Run.outcome_bind.mp h
    cases (turned sort found lists).symm.trans hpage
    obtain ⟨rows, hrows, h⟩ := Run.outcome_bind.mp h
    obtain ⟨valued, rfl⟩ := (renderRoot_flat flat field).mp hrows
    cases h
    exact ⟨fields, _, lists, valued, rfl⟩
  · rintro ⟨fields, _, lists, valued, rfl⟩
    cases lists with
    | @intro access _ predicates sort records found allowed opened taken prepared sorted stored selected =>
    refine ⟨access, fields, allowed, opened, taken, ?_⟩
    have hplan := (plan_list source single record field hw positional).mpr
      ⟨predicates, sort, prepared, sorted, rfl⟩
    have hfetch := (fetch_window w sort e.settings.pageTotal).mpr
      ⟨records, found, stored, selected, rfl⟩
    refine Run.outcome_bind.mpr ⟨_, hplan, Run.outcome_bind.mpr ⟨_, hfetch, ?_⟩⟩
    simp only [if_true]
    have lists : e.Lists ctx r source fields (sortRecords sort found) :=
      .intro allowed opened taken prepared sorted stored selected
    refine Run.outcome_bind.mpr ⟨_, turned sort found lists, ?_⟩
    exact Run.outcome_bind.mpr ⟨_, (renderRoot_flat flat field).mpr ⟨valued, rfl⟩, rfl⟩

theorem execute_list {q : Query} {source : String} (list : e.IsList q r source) (request : Value) :
    e.execute q request = e.getResource ⟨q, request⟩ .resource none := by
  have hresource : q.resource.isSome := by
    cases hr : q.resource with
    | none =>
      have found := list.found
      rw [findResource, hr] at found
      cases found
    | some name => rfl
  have endpoint : q.endpoint = .resource := by
    simp [Query.endpoint, list.field, list.record, hresource]
  rw [execute_reads request list.reads (.inl endpoint), endpoint]

/-! Other pages of the same list -/

section blind
variable {q : Query} {request : Value} {source : String} {fields : List Field} {matched : List Record}

theorem IsList.paged (list : e.IsList q r source) (page : Option Page) :
    e.IsList { q with page := page } r source :=
  ⟨list.reads, list.found, list.record, list.field, list.stored, list.many, list.flat⟩

theorem Blind.paged (blind : e.Blind r q request) (page : Option Page) :
    e.Blind r { q with page := page } request :=
  ⟨blind.toBlind, fun access allowed => blind.permission access
    ((indifferent_can blind.toBlind.rulesBlind "get.resource" q { q with page := page }).trans allowed),
    blind.filter⟩

section permitted
variable {take : Option (Entries Take)} {idName action : String} {settings : Settings} {all : List Field}

theorem permitted_cons {f : Field} : permitted take idName action ctx settings (f :: all) = .ok fields ↔
    ∃ taken rest, (if shouldTake f take idName then canTakeField f action ctx settings else .ok false) =
        .ok taken ∧ permitted take idName action ctx settings all = .ok rest ∧
      fields = if taken then f :: rest else rest := by
  rw [permitted]
  cases shouldTake f take idName <;> (
    constructor
    · intro h
      obtain ⟨taken, htaken, h⟩ := Except.monad_bind_eq_ok.mp h
      obtain ⟨rest, hrest, h⟩ := Except.monad_bind_eq_ok.mp h
      exact ⟨taken, rest, htaken, hrest, (Except.ok.inj h).symm⟩
    · rintro ⟨taken, rest, htaken, hrest, rfl⟩
      exact Except.monad_bind_eq_ok.mpr ⟨taken, htaken, Except.monad_bind_eq_ok.mpr ⟨rest, hrest, rfl⟩⟩)

theorem permitted_sublist (h : permitted take idName action ctx settings all = .ok fields) :
    fields.Sublist all := by
  induction all generalizing fields with
  | nil =>
    cases h
    exact .slnil
  | cons f all ih =>
    obtain ⟨taken, rest, -, hrest, rfl⟩ := permitted_cons.mp h
    cases taken with
    | false => exact (ih hrest).cons f
    | true => exact (ih hrest).cons_cons f

/-- What is taken and may be taken is among the fields. -/
theorem mem_permitted (h : permitted take idName action ctx settings all = .ok fields) {f : Field}
    (hf : f ∈ all) (taken : shouldTake f take idName)
    (allowed : canTakeField f action ctx settings = .ok true) : f ∈ fields := by
  induction all generalizing fields with
  | nil => cases hf
  | cons g all ih =>
    obtain ⟨kept, rest, hkept, hrest, rfl⟩ := permitted_cons.mp h
    rcases List.mem_cons.mp hf with rfl | hf
    · rw [if_pos taken, allowed] at hkept
      cases hkept
      exact List.mem_cons_self
    · cases kept with
      | false => exact ih hrest hf
      | true => exact List.mem_cons_of_mem _ (ih hrest hf)

end permitted

theorem Lists.mem_fields (h : e.Lists ctx r source fields matched) (field : ctx.query.field = none)
    {f : Field} (hf : f ∈ fields) : f ∈ r.fields := by
  cases h with
  | intro _ _ taken =>
    rw [takeFields_list "get" e.settings field] at taken
    exact (permitted_sublist taken).subset hf

/-- Every list of the same records has as many of them as match. -/
theorem Lists.length (list : e.IsList q r source) (h : e.Lists ⟨q, request⟩ r source fields matched) :
    matched.length = (e.matching r ⟨q, request⟩).length := (h.perm list.stored).length_eq

theorem Lists.of_paged (blind : e.Blind r q request) (field : q.field = none) {page : Option Page}
    (h : e.Lists ⟨{ q with page := page }, request⟩ r source fields matched) :
    e.Lists ⟨q, request⟩ r source fields matched := by
  have hback := h.of_blind (blind.paged page) field q.page
  cases q
  exact hback

/-- On every page of a list, the fields have the same values. -/
theorem Lists.fieldValue_paged (blind : e.Blind r q request) (field : q.field = none)
    (h : e.Lists ⟨q, request⟩ r source fields matched) (page : Option Page) {f : Field} (hf : f ∈ fields)
    (record : Option Record) :
    fieldValue ⟨{ q with page := page }, request⟩ r f record = fieldValue ⟨q, request⟩ r f record :=
  indifferent_fieldValue (blind.sources f (h.mem_fields field hf)) record { q with page := page } q

theorem Lists.row_paged (blind : e.Blind r q request) (field : q.field = none)
    (h : e.Lists ⟨q, request⟩ r source fields matched) (page : Option Page) (record : Option Record) :
    e.row ⟨{ q with page := page }, request⟩ r fields record = e.row ⟨q, request⟩ r fields record := by
  unfold row shown
  refine congrArg Value.object (List.map_congr_left fun f hf => ?_)
  rw [h.fieldValue_paged blind field page hf]

/-- All pages of a list are cut from the same records and show the same fields of them, if nothing reads
the query. -/
theorem execute_page (list : e.IsList q r source) (blind : e.Blind r q request)
    (counted : (e.matching r ⟨q, request⟩).length < UInt64.size) {page : Option Page}
    (hw : Window.ofPage page e.settings.pageSize = .ok w) (positional : w.IsPositional)
    {response : Response} :
    (e.execute { q with page := page } request).outcome = .ok response ↔
      ∃ fields matched, e.Lists ⟨q, request⟩ r source fields matched ∧
        (∀ f ∈ fields, ∀ record ∈ w.cut matched,
          ∃ v, fieldValue ⟨q, request⟩ r f (some record) = .ok v) ∧
        response = ⟨.arr ((w.cut matched).map fun record => e.row ⟨q, request⟩ r fields (some record)),
          w.rest (if e.settings.pageTotal then some matched.length else none) matched⟩ := by
  have hlists (fields : List Field) (matched : List Record) :
      e.Lists ⟨{ q with page := page }, request⟩ r source fields matched ↔
        e.Lists ⟨q, request⟩ r source fields matched :=
    ⟨fun h => h.of_paged blind list.field, fun h => h.of_blind blind list.field page⟩
  rw [execute_list (list.paged page), getResource_list (list.paged page) hw positional]
  · constructor
    · rintro ⟨fields, matched, lists, valued, rfl⟩
      rw [hlists] at lists
      refine ⟨fields, matched, lists, fun f hf record hmem => ?_,
        by simp only [lists.row_paged blind list.field]⟩
      rw [← lists.fieldValue_paged blind list.field page hf]
      exact valued f hf record hmem
    · rintro ⟨fields, matched, lists, valued, rfl⟩
      refine ⟨fields, matched, (hlists fields matched).mpr lists, fun f hf record hmem => ?_,
        by simp only [lists.row_paged blind list.field]⟩
      rw [lists.fieldValue_paged blind list.field page hf]
      exact valued f hf record hmem
  · intro fields matched lists
    rw [((hlists fields matched).mp lists).length list]
    exact counted

end blind

end Engine
end RecordGraph
