import RecordGraph.Proofs.Predicate.Storage
import RecordGraph.Proofs.Run.Get
import RecordGraph.Proofs.Run.Listing
import RecordGraph.Proofs.Text.Numeral

/-!
Single records. The text in the target of a query means every record whose id is this text, or a number
that as a double is the number the text writes; the first of them is rendered.
-/
namespace RecordGraph

namespace Value

/-- An identifier: a text, or an integer that 64 bits hold with a sign. -/
inductive IsId : Value → Prop
  | text (s : String) : IsId (.str s)
  | integer {i : Int} (h : -0x8000000000000000 ≤ i ∧ i < 0x10000000000000000)
    (signed : i < 0x8000000000000000) : IsId (.num (.int i h))

/-- A number that as a double is the number a text writes. -/
def matchesNumber (s : String) : Value → Bool
  | .num m => (Text.number? s).any fun n => n.equal m
  | _ => false

/-- Whether an id may be meant by a text. -/
def answers (s : String) (v : Value) : Bool := v.matchesNumber s || v.str? == some s

theorem answers_str (s t : String) : (Value.str t).answers s = (t == s) := by
  simp [answers, matchesNumber, str?]

/-- An id is meant by its own text. -/
theorem IsId.answers {v : Value} (h : v.IsId) : v.answers (idText v) := by
  cases h with
  | text s => simp [answers_str, idText]
  | @integer i h signed =>
    have htext : idText (.num (.int i h)) = (Number.int i h).text := rfl
    have hequal : (Number.int i h).equal (.int i h) = true := beq_self_eq_true _
    rw [htext, Value.answers, matchesNumber, Text.number?_text h signed, Option.any_some, hequal,
      Bool.true_or]

/-- Any other id that is meant by it is a number. -/
theorem IsId.answers_of_ne {v : Value} (h : v.IsId) {s : String} (hne : idText v ≠ s) :
    v.answers s = v.matchesNumber s := by
  cases h with
  | text t => simpa [answers_str, matchesNumber, idText] using hne
  | integer => simp [Value.answers, str?]

end Value

namespace Record
variable {key s : String} {record : Record}

/-- What a key stands for on a record, where it is used as a reference. -/
def refer (record : Record) (key : String) : Value :=
  Expr.evalText (.node "fields" (.obj record)) key

/-- Whether a record may be meant by a text, as far as its key tells. -/
def answers (key s : String) (record : Record) : Bool := (record.refer key).answers s

/-- Whether the id of a record is a number that as a double is the number a text writes. -/
def sharesNumber (key s : String) (record : Record) : Bool :=
  (record.get? key).any (Value.matchesNumber s)

/-- A key of one segment that is neither empty nor quoted stands for what the record holds under it. -/
theorem refer_eq (undotted : '.' ∉ key.toList) (named : key ∉ ["fields", "request", "query"])
    (filled : key ≠ "") (bare : Expr.unquoted? key = none) :
    record.refer key = (record.get? key).getD .null := by
  have unscoped := Expr.isScoped_of_not_mem undotted named
  rw [refer, Expr.evalText, bare]
  simp only [String.isEmpty_iff, filled, if_false]
  rw [Expr.get_in_record record filled (Text.afterChar?_of_not_mem undotted) unscoped rfl,
    Value.lookup_of_not_mem undotted filled]
  rfl

/-- The predicate that is made of a text selects the records it may mean. -/
theorem isMatch_idPredicate (key s : String) (record : Record) :
    Store.isMatch (some (idPredicate key s)) record = .ok (record.answers key s) := by
  have hkey : Expr.eval (.node "fields" (.obj record)) (.str key) = .ok (record.refer key) := rfl
  have hquote : Expr.eval (.node "fields" (.obj record)) (.str (Expr.quote s)) = .ok (.str s) := by
    simp [Expr.eval, Expr.evalText]
  unfold Store.isMatch idPredicate
  cases hnumber : Text.number? s with
  | some n =>
    have items : Expr.eval (.node "fields" (.obj record)) (.arr [.num n, .str (Expr.quote s)]) =
        .ok (.arr [.num n, .str s]) := by
      simp [Expr.eval, Expr.evalItems, Expr.evalText]
    dsimp only
    rw [Expr.eval_node_binary _ rfl hkey items]
    cases hv : record.refer key <;>
      simp [answers, hv, Value.answers, Value.matchesNumber, Value.str?, hnumber, Expr.Binary.apply,
        Expr.contains, Expr.equal, Value.same, Expr.truthy, eq_comm]
  | none =>
    have items : Expr.evalItems (.node "fields" (.obj record)) [.str key, .str (Expr.quote s)] =
        .ok [record.refer key, .str s] := by
      simp [Expr.evalItems, hkey, hquote]
    dsimp only
    rw [Expr.eval_node_variadic _ rfl, items]
    cases hv : record.refer key <;>
      simp [answers, hv, Value.answers, Value.matchesNumber, Value.str?, hnumber,
        Expr.Variadic.apply, Expr.allEqual, Expr.equal, Value.same, Expr.truthy]

end Record

/-- Fields that are stored, and no rule or condition for the resource or for a field. -/
structure Resource.Unruled (r : Resource) (settings : Settings) : Prop where
  rules : r.can.getD [] = []
  fieldRules : ∀ f ∈ r.fields, permissionTable f settings = []
  conditions : ∀ f ∈ r.fields, f.depends = none
  stored : ∀ f ∈ r.fields, f.source.storagePath?.isSome

/-- The fields that a `take` asks for. -/
def Resource.taken (r : Resource) (take : Option (Entries Take)) : List Field :=
  r.fields.filter fun f => shouldTake f take r.idName

section unruled
variable {r : Resource} {settings : Settings}

theorem can_unruled (h : r.Unruled settings) (action : String) (ctx : Context) : can r action ctx none = .ok .all := by
  rw [can_none]
  exact ruledAccess_uncovered ctx (by simp [Resource.covering, h.rules])

theorem permitted_unruled (h : r.Unruled settings) (take : Option (Entries Take)) (action : String) (ctx : Context) :
    permitted take r.idName action ctx settings r.fields = .ok (r.taken take) := by
  have run (fields : List Field) (sub : ∀ f ∈ fields, canTakeField f action ctx settings = .ok true) :
      permitted take r.idName action ctx settings fields =
        .ok (fields.filter fun f => shouldTake f take r.idName) := by
    induction fields with
    | nil => rfl
    | cons f fields ih =>
      rw [List.forall_mem_cons] at sub
      rw [permitted, sub.1, ih sub.2, List.filter_cons]
      cases shouldTake f take r.idName <;> rfl
  refine run r.fields fun f hf => ?_
  rw [canTakeField, isAvailable, h.conditions f hf, h.fieldRules f hf]
  rfl

end unruled

namespace Engine
variable {e : Engine} {q : Query} {r : Resource} {source s : String} {records : List Record}

/-- A query for one record by the text of its id, which otherwise says at most what to take. -/
structure IsLookup (e : Engine) (q : Query) (r : Resource) (source s : String) : Prop where
  reads : q.action.getD .get = .get
  found : e.findResource q = .ok r
  record : q.record = some s
  field : q.field = none
  stored : r.source = some source
  flat : q.Flat
  filter : q.filter = none
  sort : q.sort = none
  page : q.page = none

theorem fieldValue_stored {f : Field} (stored : f.source.storagePath?.isSome) (ctx : Context)
    (record : Record) : ∃ v, fieldValue ctx r f (some record) = .ok v := by
  unfold fieldValue
  cases hsource : f.source with
  | path p =>
    simp only [Except.monad_bind, Except.ok_bind]
    split <;> exact ⟨_, rfl⟩
  | context | expression =>
    rw [hsource] at stored
    cases stored

theorem execute_record (lookup : e.IsLookup q r source s) (request : Value) :
    e.execute q request = e.getResource ⟨q, request⟩ .record none := by
  have endpoint : q.endpoint = .record := by simp [Query.endpoint, lookup.field, lookup.record]
  rw [execute_reads request lookup.reads (.inr (.inl endpoint)), endpoint]

/-- The plan of a lookup reads the first record that its text may mean. -/
theorem plan_lookup (lookup : e.IsLookup q r source s) (request : Value) :
    ∃ w, e.plan ⟨q, request⟩ r .record .all source =
      .ok ⟨w, false, ⟨source, some (idPredicate r.idKey s), [], 0, some 1, false⟩⟩ := by
  have hscope := scope_root_list lookup.field
  obtain ⟨w, hw⟩ : ∃ w, Window.ofPage none e.settings.pageSize = .ok w := ⟨_, rfl⟩
  refine ⟨w, ?_⟩
  unfold plan rootPredicates
  rw [hscope]
  simp only [Except.monad_bind, Except.ok_bind, Scope.page?, Scope.state?, Option.bind_some,
    lookup.page, lookup.filter, lookup.sort, lookup.record, hw]
  rfl

/-- A lookup renders the first record that its text may mean. -/
theorem execute_lookup (lookup : e.IsLookup q r source s) (unruled : r.Unruled e.settings)
    (stored : e.store.collection source = .ok records) (request : Value) :
    (e.execute q request).outcome =
      (records.find? (Record.answers r.idKey s)).elim (.error (.notFound (.record r.id s)))
        fun record => .ok { data := e.row ⟨q, request⟩ r (r.taken q.take) (some record) } := by
  obtain ⟨w, hplan⟩ := plan_lookup lookup request
  have taken : takeFields r "get" Level.root ⟨q, request⟩ e.settings =
      .ok (r.taken q.take) := by
    rw [takeFields_list "get" e.settings lookup.field, permitted_unruled unruled]
  have selected : Store.select (some (idPredicate r.idKey s)) records =
      .ok (records.filter (Record.answers r.idKey s)) :=
    Store.select_eq_ok_filter fun record _ => Record.isMatch_idPredicate r.idKey s record
  have fetched : e.store.fetch ⟨source, some (idPredicate r.idKey s), [], 0, some 1, false⟩ =
      .ok ⟨(records.filter (Record.answers r.idKey s)).take 1, none⟩ := by
    rw [Store.fetch, stored]
    simp only [Except.monad_bind, Except.ok_bind, selected]
    rfl
  rw [execute_record lookup, getResource, Run.outcome_bind_ok lookup.found,
    Run.outcome_bind_ok (can_unruled unruled _ _)]
  simp only [Access.isDenied, Bool.false_eq_true, if_false]
  rw [Run.outcome_bind_ok taken]
  simp only [lookup.stored]
  rw [Run.outcome_bind_ok hplan, Run.outcome_bind_ok (Store.answer_eq_ok.mpr fetched)]
  simp only [Bool.false_eq_true, if_false]
  rw [← List.head?_filter]
  cases hfound : records.filter (Record.answers r.idKey s) with
  | nil =>
    have hnone : theRecord q r .record ⟨[].take 1, none⟩ = .error (.notFound (.record r.id s)) := by
      simp [theRecord, lookup.record]
    simp only [hnone]
    rfl
  | cons record rest =>
    have hsome : theRecord q r .record ⟨(record :: rest).take 1, none⟩ = .ok record := rfl
    have hrows : (e.renderRoot ⟨q, request⟩ r (r.taken q.take) ([record].map some)).outcome =
        .ok ([record].map fun record => e.row ⟨q, request⟩ r (r.taken q.take) (some record)) :=
      (renderRoot_flat lookup.flat lookup.field).mpr ⟨fun f hf record _ =>
        fieldValue_stored (unruled.stored f (List.mem_of_mem_filter hf)) _ record, rfl⟩
    rw [List.map_singleton] at hrows
    rw [Run.outcome_bind_ok hsome, Run.outcome_bind_ok hrows]
    rfl

/-- Among ids with distinct texts, the text of an id means its own record, and those before it whose ids
are numbers that as doubles are the number it writes. -/
theorem find?_answers {key : String} {before after : List Record} {record : Record} {id : Value}
    (held : record.get? key = some id)
    (ids : ∀ other ∈ before ++ record :: after, ∃ v, other.get? key = some v ∧ v.IsId)
    (distinct : ((before ++ record :: after).map fun other => (other.get? key).map idText).Nodup)
    (refers : ∀ other : Record, other.refer key = (other.get? key).getD .null) :
    (before ++ record :: after).find? (Record.answers key (idText id)) = some record ↔
      ∀ other ∈ before, other.sharesNumber key (idText id) = false := by
  obtain ⟨v, hv, hid⟩ := ids record (by simp)
  cases held.symm.trans hv
  have own : record.answers key (idText id) := by
    rw [Record.answers, refers, held]
    exact hid.answers
  have others : ∀ other ∈ before, (other.get? key).map idText ≠ some (idText id) ∧
      other.answers key (idText id) = other.sharesNumber key (idText id) := by
    intro other hmem
    obtain ⟨w, hw, hid⟩ := ids other (by simp [hmem])
    have hne : (other.get? key).map idText ≠ some (idText id) := by
      rw [List.map_append, List.map_cons, held] at distinct
      exact (List.nodup_append.mp distinct).2.2 _ (List.mem_map_of_mem hmem) _ List.mem_cons_self
    refine ⟨hne, ?_⟩
    rw [Record.answers, refers, hw, Record.sharesNumber, hw]
    exact hid.answers_of_ne fun heq => hne (by rw [hw, Option.map_some, heq])
  rw [List.find?_append, List.find?_cons_of_pos own]
  cases hfound : before.find? (Record.answers key (idText id)) with
  | none =>
    rw [List.find?_eq_none] at hfound
    refine iff_of_true rfl fun other hmem => ?_
    rw [← (others other hmem).2]
    exact Bool.eq_false_iff.mpr (hfound other hmem)
  | some other =>
    have hmem := List.mem_of_find?_eq_some hfound
    have hanswers := List.find?_some hfound
    refine iff_of_false ?_ fun h => ?_
    · rintro ⟨⟩
      exact (others record hmem).1 (by rw [held]; rfl)
    · rw [(others other hmem).2, h other hmem] at hanswers
      cases hanswers

/-- The text of an id renders the first record it may mean. Where the key of the ids can be a reference,
this is the record with that id, unless the id of an earlier one is a number that as a double is the
number it writes. -/
theorem execute_record_id {before after : List Record} {record : Record} {id : Value}
    (lookup : e.IsLookup q r source (idText id)) (unruled : r.Unruled e.settings)
    (stored : e.store.collection source = .ok (before ++ record :: after))
    (held : record.get? r.idKey = some id)
    (ids : ∀ other ∈ before ++ record :: after, ∃ v, other.get? r.idKey = some v ∧ v.IsId)
    (distinct : ((before ++ record :: after).map fun other =>
      (other.get? r.idKey).map idText).Nodup)
    (undotted : '.' ∉ r.idKey.toList) (named : r.idKey ∉ ["fields", "request", "query"])
    (request : Value) :
    (e.execute q request).outcome =
        ((before ++ record :: after).find? (Record.answers r.idKey (idText id))).elim
          (.error (.notFound (.record r.id (idText id))))
          (fun found => .ok { data := e.row ⟨q, request⟩ r (r.taken q.take) (some found) }) ∧
      (r.idKey ≠ "" → Expr.unquoted? r.idKey = none →
        ((before ++ record :: after).find? (Record.answers r.idKey (idText id)) = some record ↔
          ∀ other ∈ before, other.sharesNumber r.idKey (idText id) = false)) :=
  ⟨execute_lookup lookup unruled stored request, fun filled bare =>
    find?_answers held ids distinct fun _ => Record.refer_eq undotted named filled bare⟩

end Engine

/-! Two numbered books -/

namespace Shelf

/-- The books of the library, without rules. -/
def openBooks : Resource := { book with can := none }

def emma (number : Number) : Record := [("id", .num number), ("meta", .node "title" (.str "Emma"))]

def persuasion (number : Number) : Record :=
  [("id", .num number), ("meta", .node "title" (.str "Persuasion"))]

def numbered (first second : Number) : Engine where
  server := { spaces := [("library", ⟨"library", [("book", openBooks)]⟩)] }
  store := [("books", [emma first, persuasion second])]
  settings := {}

def lookup (s : String) : Query where
  space := some "library"
  resource := some "book"
  record := some s

theorem isLookup (first second : Number) (s : String) :
    (numbered first second).IsLookup (lookup s) openBooks "books" s where
  reads := rfl
  found := rfl
  record := rfl
  field := rfl
  stored := rfl
  flat := by rintro ts ⟨⟩
  filter := rfl
  sort := rfl
  page := rfl

theorem unruled_openBooks : openBooks.Unruled {} where
  rules := rfl
  fieldRules := by simp [openBooks, book, title, permissionTable]
  conditions := by simp [openBooks, book, title]
  stored := by simp [openBooks, book, title, FieldSource.storagePath?]

theorem isId_numbered {i j : Int} (hi : -0x8000000000000000 ≤ i ∧ i < 0x10000000000000000)
    (hj : -0x8000000000000000 ≤ j ∧ j < 0x10000000000000000) (signed : i < 0x8000000000000000)
    (signed' : j < 0x8000000000000000) :
    ∀ other ∈ [emma (.int i hi), persuasion (.int j hj)],
      ∃ v, other.get? openBooks.idKey = some v ∧ v.IsId := by
  simp only [List.forall_mem_cons]
  exact ⟨⟨_, rfl, .integer hi signed⟩, ⟨_, rfl, .integer hj signed'⟩, by simp⟩

end Shelf

/-- The second of two books is found by its number. -/
theorem Engine.execute_record_id_second :
    let e := Shelf.numbered (.int 1 (by decide)) (.int 2 (by decide))
    (e.execute (Shelf.lookup "2") .null).outcome = .ok {
      data := e.row ⟨Shelf.lookup "2", .null⟩ Shelf.openBooks (Shelf.openBooks.taken none)
        (some (Shelf.persuasion (.int 2 (by decide)))) } := by
  intro e
  have stored : e.store.collection "books" =
      .ok ([Shelf.emma (.int 1 (by decide))] ++ [Shelf.persuasion (.int 2 (by decide))]) := rfl
  have held : Entries.get? (Shelf.persuasion (.int 2 (by decide))) Shelf.openBooks.idKey =
      some (.num (.int 2 (by decide))) := rfl
  obtain ⟨houtcome, hfound⟩ := execute_record_id (Shelf.isLookup _ _ "2") Shelf.unruled_openBooks
    stored held (Shelf.isId_numbered _ _ (by decide) (by decide)) (by decide +kernel) (by decide)
    (by decide) .null
  rw [houtcome, (hfound (by decide) (by decide)).mpr (by decide +kernel)]
  rfl

/-- Of two books whose numbers are the same double, the first is rendered for the number of the second. -/
theorem Engine.execute_record_id_rounded :
    let first : Number := .int 9007199254740992 (by decide)
    let second : Number := .int 9007199254740993 (by decide)
    let e := Shelf.numbered first second
    let q := Shelf.lookup second.text
    let row := fun record => e.row ⟨q, .null⟩ Shelf.openBooks (Shelf.openBooks.taken none) (some record)
    e.IsLookup q Shelf.openBooks "books" (idText (.num second)) ∧
      Shelf.openBooks.Unruled e.settings ∧ first.text ≠ second.text ∧
      (e.execute q .null).outcome = .ok { data := row (Shelf.emma first) } ∧
      row (Shelf.emma first) ≠ row (Shelf.persuasion second) := by
  intro first second e q row
  have isLookup := Shelf.isLookup first second second.text
  have unruled := Shelf.unruled_openBooks
  refine ⟨isLookup, unruled, by decide +kernel, ?_, ?_⟩
  · rw [execute_lookup (e := e) isLookup unruled rfl]
    have hfound : [Shelf.emma first, Shelf.persuasion second].find?
        (Record.answers Shelf.openBooks.idKey second.text) = some (Shelf.emma first) :=
      List.find?_cons_of_pos (by decide +kernel)
    rw [hfound]
    rfl
  · intro h
    have htexts : (row (Shelf.emma first)).text ≠ (row (Shelf.persuasion second)).text := by
      decide +kernel
    exact htexts (congrArg Value.text h)

end RecordGraph
