import RecordGraph.Proofs.Run.Agreeing
import RecordGraph.Proofs.Run.Children
import RecordGraph.Proofs.Run.Depth
import RecordGraph.Proofs.Run.Loading
import RecordGraph.Proofs.Store.Columns
import RecordGraph.Proofs.Store.Without

/-!
What is hidden from a requester, and what reads it: other fields, ids, relations and permissions on the
side of the graph, filters, sort keys and cursors on the side of a query.
-/
namespace RecordGraph

namespace Engine
variable {e : Engine} {collection path : String} {request : Value} {r : Resource} {f g : Field}

/-! What is hidden -/

/-- The storage key under which the targets of a relation point back. -/
def inverseKey (t : Resource) (name : String) : String :=
  ((t.field? name).bind fun g => g.source.storagePath?).getD name

/-- The records that are stored for a resource. -/
def recordsOf (e : Engine) (r : Resource) : List Record := r.source.elim [] e.store.records

/-- The key of ids is not read at a path, whichever way it is read. -/
structure IdUnread (path key : String) : Prop where
  got : Unread path (Entries.get? · key)
  read : Unread path (Record.read · key)
  referred : Unread path (Record.refer · key)

/-- A field that the requester may not get, at whose path in its collection nothing else is read: no other
field, no id, no relation and no permission. A relation reads a path of its targets if it computes an id
that refers there. -/
structure Hides (e : Engine) (request : Value) (r : Resource) (f : Field) (collection path : String) :
    Prop where
  known : r ∈ e.resources
  mem : f ∈ r.fields
  stored : r.source = some collection
  source : f.source = .path path
  denied : ∀ q, canTakeField f "get" ⟨q, request⟩ e.settings ≠ .ok true
  fields : ∀ s ∈ e.resources, s.source = some collection → ∀ g ∈ s.fields, (s = r ∧ g = f) ∨
    ∀ q, Unread path fun record => fieldValue ⟨q, request⟩ s g (some record)
  ids : ∀ s ∈ e.resources, s.source = some collection → IdUnread path s.idKey
  relations : ∀ s ∈ e.resources, s.source = some collection → ∀ g ∈ s.fields, g.link?.isSome →
    ∀ p, g.source = .path p → (s = r ∧ g = f) ∨ Unread path (Record.read · p)
  inverses : ∀ s ∈ e.resources, ∀ g ∈ s.fields, ∀ t, e.server.target? s g = some t →
    t.source = some collection → ∀ name, g.inverse = some name →
      (s = r ∧ g = f) ∨ Unread path (Entries.get? · (inverseKey t name))
  computed : ∀ s ∈ e.resources, ∀ g ∈ s.fields, Computes s g → ∀ t, e.server.target? s g = some t →
    t.source = some collection → ∀ q record v, (∀ stored, record = some stored → stored ∈ e.recordsOf s) →
      fieldValue ⟨q, request⟩ s g record = .ok v → ∀ id ∈ linkedIds t.idKey v,
        Unread path fun target => Expr.eval (.node "fields" (.obj target)) (Expr.makeLiteral id)
  permissions : ∀ s ∈ e.resources, s.source = some collection → ∀ q action via access predicate prepared,
    can s action ⟨q, request⟩ via = .ok access → access.predicate? = some predicate →
      e.preparePredicate s ⟨q, request⟩ predicate = .ok prepared →
        Unread path (Store.isMatch (some prepared))

/-- A reference to a path that parts from another does not read the other. -/
theorem unread_refer {other : String} (h : diverge (Text.pieces '.' path) (Text.pieces '.' other))
    (filled : "" ∉ Text.pieces '.' other) (unscoped : Expr.isScoped other = false)
    (bare : Expr.unquoted? other = none) : Unread path (Record.refer · other) := by
  have reads (record : Record) :
      record.refer other = ((Value.obj record).lookup other).getD .null := by
    rw [Record.refer, Expr.evalText_path filled bare, Record.seen_of_unscoped filled unscoped,
      Record.read_eq_lookup record filled]
  refine unread_of_without fun record => ?_
  rw [reads, reads, Record.lookup_without h]

theorem unread_idPredicate {key : String} (unread : Unread path (Record.refer · key)) (id : String) :
    Unread path (Store.isMatch (some (idPredicate key id))) := by
  intro a b same
  have refer : a.refer key = b.refer key := unread a b same
  rw [Record.isMatch_idPredicate, Record.isMatch_idPredicate, Record.answers, Record.answers, refer]

theorem unread_fieldValue {ctx : Context} {s : Resource} {other : String} (held : g.source = .path other)
    (unread : Unread path (Record.read · other)) :
    Unread path fun record => fieldValue ctx s g (some record) := by
  intro a b same
  have read : a.read other = b.read other := unread a b same
  dsimp only
  rw [fieldValue, fieldValue, held]
  dsimp only
  rw [read]

/-- The resources that the levels of a query are about. -/
inductive Reaches (e : Engine) (q : Query) : Resource → Level → Prop
  | root {r : Resource} (found : e.findResource q = .ok r) : Reaches e q r Level.root
  | enter {r t : Resource} {level : Level} {f : Field} (h : Reaches e q r level) (mem : f ∈ r.fields)
    (target : e.server.target? r f = some t) : Reaches e q t (level.enter f.name)

theorem Reaches.known {q : Query} {level : Level} (h : e.Reaches q r level) : r ∈ e.resources := by
  cases h with
  | root found => exact mem_resources_of_findResource found
  | enter _ _ target => exact mem_resources_of_target? target

/-- The filter and the sort keys of a level do not read a path. -/
structure LevelOverlooks (e : Engine) (ctx : Context) (path : String) (r : Resource) (level : Level) :
    Prop where
  filter : ∀ scope predicate prepared, ctx.query.scope level = .ok scope →
    scope.state?.bind Query.filter = some predicate → e.preparePredicate r ctx predicate = .ok prepared →
      Unread path (Store.isMatch (some prepared))
  sort : ∀ scope keys, ctx.query.scope level = .ok scope →
    e.prepareSort r (scope.state?.bind Query.sort) = .ok keys →
      ∀ key ∈ keys, Unread path (Record.read · key.path)

/-- The cursor of a query that continues by values does not read a path. -/
structure CursorOverlooks (e : Engine) (q : Query) (path : String) (r : Resource) : Prop where
  predicate : ∀ scope window many predicates, q.scope Level.root = .ok scope →
    Window.ofPage scope.page? e.settings.pageSize = .ok window →
      e.keysetStorage r window many = .ok predicates →
        ∀ p ∈ predicates, Unread path (Store.isMatch (some p))
  values : ∀ scope window after, q.scope Level.root = .ok scope →
    Window.ofPage scope.page? e.settings.pageSize = .ok window → window.cursor = some (.keyset after) →
      ∀ name ∈ after.keys, ∀ p, e.server.storagePath r name = .ok p → Unread path (Record.read · p)

/-- The queries that are answered for a query: itself, and those of the children of servers and spaces. -/
inductive Asks : Query → Query → Prop
  | self (q : Query) : Asks q q
  | child {q sub below : Query} {key name : String} (children : AsksChildren q)
    (child : childQuery q key name = .ok sub) (h : Asks sub below) : Asks q below

/-- No level of a query reads a path of a collection: no filter, no sort key and no cursor. -/
structure Overlooks (e : Engine) (request : Value) (collection path : String) (q : Query) : Prop where
  levels : ∀ r level, e.Reaches q r level → r.source = some collection →
    e.LevelOverlooks ⟨q, request⟩ path r level
  cursor : ∀ r, e.findResource q = .ok r → r.source = some collection → e.CursorOverlooks q path r

/-! Records that correspond -/

/-- Records of a resource in two stores: the same, up to what is at a path of a collection. -/
def Counterparts (e : Engine) (collection path : String) (r : Resource) (a b : Record) : Prop :=
  a ∈ e.recordsOf r ∧ if r.source = some collection then a.without path = b.without path else a = b

theorem Counterparts.same {α : Type} {make : Record → α} {a b : Record}
    (h : e.Counterparts collection path r a b) (unread : r.source = some collection → Unread path make) :
    make a = make b := by
  obtain ⟨-, h⟩ := h
  split at h
  · exact unread ‹_› a b h
  · rw [h]

/-- Stores that agree off a path have corresponding records. -/
theorem collection_agrees {store : Store} (agree : e.store.AgreeOff collection path store)
    {source : String} (stored : r.source = some source) :
    Except.Agrees (List.Forall₂ (e.Counterparts collection path r)) (e.store.collection source)
      (store.collection source) := by
  have run : ∀ {s s' : Store}, s.AgreeOff collection path s' → Option.Rel (List.Forall₂ fun a b =>
      if r.source = some collection then a.without path = b.without path else a = b)
      (Entries.get? s source) (Entries.get? s' source) := by
    intro s s' h
    induction h with
    | nil => exact .none
    | @cons entry entry' _ _ hentry _ ih =>
      obtain ⟨hname, hrecords⟩ := hentry
      rw [Entries.get?_cons, Entries.get?_cons, ← hname]
      by_cases hsource : source = entry.1
      · rw [if_pos hsource, if_pos hsource]
        refine .some ?_
        simp only [stored, hsource, Option.some.injEq]
        by_cases hcollection : entry.1 = collection
        · simpa only [if_pos hcollection] using hrecords
        · simpa only [if_neg hcollection, List.forall₂_eq_eq_eq] using hrecords
      · rw [if_neg hsource, if_neg hsource]
        exact ih
  have found := run agree
  have held {records : List Record} (h : Entries.get? e.store source = some records) :
      e.recordsOf r = records := by
    simp [recordsOf, stored, Store.records, Store.collection, h, Except.toOption]
  unfold Store.collection
  generalize hx : Entries.get? e.store source = x at found ⊢
  generalize Entries.get? store source = y at found ⊢
  cases found with
  | none => exact .error _
  | some h => exact .ok ((List.forall₂_and_left _ _).mpr ⟨fun a ha => held hx ▸ ha, h⟩)

end Engine
end RecordGraph
