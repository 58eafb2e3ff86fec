import RecordGraph.Proofs.Run.Resizing

/-!
Page sizes of nested lists. With a smaller page at the level of a relation, a query that is answered is
answered again: the lists that stand at this level are cut, and all else is the same.
-/
namespace RecordGraph

namespace Engine

/-- Lists of relations are cut at the page size of their level and only there. A get query that is answered
is answered with a smaller page at the level of a relation too: of each list at this level it shows the
first targets, as many as the page holds, and all else is the same. Nothing reads the query, and the
computed relations that are followed can be loaded for many records together. -/
theorem execute_sizedAt (e : Engine) (q : Query) (request : Value) (reads : q.action.getD .get = .get)
    (blind : e.QueryFree request) (filters : q.FiltersBlind request)
    (regular : ∀ names asked, AsksAt q names asked → e.LoadsRegularly ⟨asked, request⟩)
    {level : Level} {state : Query} (stands : q.stateAt? level = some state)
    (relation : ∀ names asked, AsksAt q names asked →
      asked.endpoint = .resource ∨ asked.endpoint = .record → level.names ≠ names)
    {size : UInt64} (smaller : size ≤ (state.page.bind Page.size).getD e.settings.pageSize)
    {response : Response} (h : (e.execute q request).outcome = .ok response) :
    (e.execute (q.sizedAt level size) request).outcome =
      .ok (response.mapData (e.cutAnswer q (· == level.names) size.toNat)) := by
  have resizes : e.Resizes request (· == level.names) size q (q.sizedAt level size) := by
    refine ⟨Query.resized_sizedAt stands size, filters, fun names other hit led => ?_⟩
    rw [Query.stateAt?_eq, Query.below?_eq_some] at stands
    rw [eq_of_beq hit, stands] at led
    cases led
    exact smaller
  refine execute_resized blind resizes regular (fun names asked h target => ?_) reads response h
  exact beq_eq_false_iff_ne.mpr (relation names asked h target).symm

end Engine

/-! Clubs of readers with books on loan -/

namespace Shelf

/-- A reader who is known by an id. -/
def member : Resource :=
  { reader with fields := [{ title with name := "id", owner := "library.reader", source := .path "id" }, loans] }

def membership : Field := { title with
  name := "members"
  owner := "library.club"
  type := .obj [("items", .str "@reader"), ("type", .str "array")]
  source := .path "members" }

def club : Resource := { book with name := "club", source := some "clubs", fields := [membership], can := none }

/-- A club of two readers, the books known by what is stored at `key`. -/
def clubs (key : String) : Engine where
  server := { spaces := [("library", ⟨"library",
    [("book", catalogued key), ("club", club), ("reader", member)]⟩)] }
  store := [
    ("books", [lent]),
    ("clubs", [[("id", .uint 1), ("members", .arr [.uint 1, .uint 2])]]),
    ("readers", [[("id", .uint 1), ("loans", .arr [.str "a"])], [("id", .uint 2), ("loans", .arr [.str "b"])]])]
  settings := {}

/-- The members of clubs, with what they have on loan. -/
def met : Query where
  space := some "library"
  resource := some "club"
  take := some [("members", .nested { take := some [("loans", .nested {})] })]

def seated : Engine.Target where
  resource := member
  level := ["members"]
  fields := member.fields
  size := (clubs "id").settings.pageSize
  predicates := []
  sort := []
  source := "readers"

/-- The books that members have on loan. -/
def carried (key : String) : Engine.Target := (loaned key).at ["members", "loans"]

theorem target_members (key : String) :
    (clubs key).target ⟨met, .null⟩ club membership "reader" Level.root = .ok seated := by
  rfl

theorem target_carried (key : String) :
    (clubs key).target ⟨met, .null⟩ member loans "book" ["members"] = .ok (carried key) := by
  rfl

/-- From clubs their members are followed, from these their loans, and nothing from these. -/
theorem follows_clubs {key : String} {below : Batch} {f : Field} {t : Engine.Target}
    (reached : Relation.ReflTransGen (Batch.Leads (clubs key) ⟨met, .null⟩)
      ((clubs key).rootBatch club [membership]) below)
    (follows : below.Follows (clubs key) ⟨met, .null⟩ f t) :
    (below = (clubs key).rootBatch club [membership] ∧ f = membership ∧ t = seated) ∨
      (below = seated.batch (clubs key) membership ∧ f = loans ∧ t = carried key) := by
  induction reached generalizing f t with
  | refl =>
    obtain ⟨⟨hf, -⟩, link, hlink, ht⟩ := follows
    obtain rfl : f = membership := List.mem_singleton.mp hf
    obtain rfl : "reader" = link := Option.some.inj hlink
    exact .inl ⟨rfl, rfl, Except.ok.inj (ht.symm.trans (target_members key))⟩
  | tail _ leads ih =>
    obtain ⟨f', t', above, rfl⟩ := leads
    obtain ⟨⟨hf, hlinked, -⟩, link, hlink, ht⟩ := follows
    rcases ih above with ⟨-, rfl, rfl⟩ | ⟨-, -, rfl⟩
    · obtain rfl : f = loans := by
        simp only [Engine.Target.batch, seated, member, List.mem_cons, List.not_mem_nil, or_false] at hf
        rcases hf with rfl | rfl
        · cases hlink
        · rfl
      obtain rfl : "book" = link := Option.some.inj hlink
      exact .inr ⟨rfl, rfl, Except.ok.inj (ht.symm.trans (target_carried key))⟩
    · have unlinked : ∀ f ∈ (catalogued key).fields, f.link? = none := by
        simp only [catalogued, List.forall_mem_cons]
        exact ⟨rfl, rfl, by simp⟩
      rw [unlinked f hf] at hlink
      cases hlink

theorem uniformIds_carried (key : String) :
    UniformIds (((seated.batch (clubs key) membership).records.map (Engine.held ⟨met, .null⟩ member loans)).flatMap
      (linkedIds (carried key).resource.idKey)) := by
  have ids : ((seated.batch (clubs key) membership).records.map
      (Engine.held ⟨met, .null⟩ member loans)).flatMap (linkedIds (carried key).resource.idKey) =
        [.str "a", .str "b"] := rfl
  rw [ids]
  exact .inl (by simp)

/-- A query for clubs asks for nothing else. -/
theorem asksAt_met {names : List String} {asked : Query} (h : Engine.AsksAt met names asked) :
    names = [] ∧ asked = met := by
  cases h with
  | self => exact ⟨rfl, rfl⟩
  | child children => cases children.resource

theorem loadsRegularly_met : (clubs "id").LoadsRegularly ⟨met, .null⟩ := by
  intro r fields more found taken reached f t follows computes
  obtain rfl : club = r := Except.ok.inj found
  obtain rfl : [membership] = fields := Except.ok.inj taken
  rcases follows_clubs reached follows with ⟨rfl, rfl, rfl⟩ | ⟨rfl, rfl, rfl⟩
  · exact absurd rfl (computes "members" "clubs" rfl)
  · refine ⟨uniformIds_carried "id", by simp [carried, loaned, Engine.Target.at], ?_⟩
    have stored : (carried "id").stored (clubs "id") = [lent] := rfl
    rw [stored, List.forall_mem_singleton]
    intro v hv
    have key : (carried "id").resource.idKey = "id" := rfl
    rw [key] at hv ⊢
    rw [Record.refer_eq (by decide) (by decide) (by decide) (by decide)]
    cases hv
    rfl

theorem queryFree_clubs (key : String) : (clubs key).QueryFree .null := by
  have unruled : ∀ r ∈ (clubs key).resources, r.can = none ∧
      ∀ f ∈ r.fields, f.can = none ∧ f.depends = none ∧ f.source.Blind .null := by
    have blind : loans.source.Blind .null := fun _ _ _ => rfl
    have only : ∀ r ∈ (clubs key).resources, r = catalogued key ∨ r = club ∨ r = member := by
      simp [Engine.resources, clubs]
    intro r hr
    rcases only r hr with rfl | rfl | rfl
    · simp [catalogued, openBooks, title, FieldSource.Blind]
    · simp [club, membership, title, FieldSource.Blind]
    · refine ⟨rfl, List.forall_mem_cons.mpr ⟨⟨rfl, rfl, trivial⟩, ?_⟩⟩
      exact List.forall_mem_singleton.mpr ⟨rfl, rfl, blind⟩
  constructor
  · intro r hr
    obtain ⟨can, fields⟩ := unruled r hr
    refine ⟨by simp [can], fun f hf condition h => ?_, fun f hf rule h => ?_, fun f hf => (fields f hf).2.2⟩
    · cases (fields f hf).2.1.symm.trans h
    · have table : permissionTable f (clubs key).settings = [] := by
        simp [permissionTable, (fields f hf).1, clubs]
      rw [table] at h
      cases h
  · intro r hr f hf rule h
    rw [((unruled r hr).2 f hf).1] at h
    cases h
  · intro r hr action q access h predicate hp
    rw [can_none, ruledAccess_uncovered _ (by simp [Resource.covering, (unruled r hr).1])] at h
    cases h
    cases hp

/-- Where one state is nested in a state, names lead on from it. -/
theorem follow_single {q state found : Query} {key name : String} {names : List String}
    (only : q.take = some [(key, .nested state)]) (h : q.follow (name :: names) = some (.state found)) :
    state.follow names = some (.state found) := by
  have entry : q.entry? name = if name = key then some (.nested state) else none := by
    rw [Query.entry?, only]
    by_cases heq : name = key <;> simp [heq]
  rw [Query.follow, entry] at h
  by_cases heq : name = key
  · rw [if_pos heq] at h
    exact h
  · rw [if_neg heq] at h
    cases h

theorem filtersBlind_met : met.FiltersBlind .null := by
  have unfiltered {names : List String} {state : Query} (h : met.follow names = some (.state state)) :
      state.filter = none := by
    rcases names with - | ⟨first, - | ⟨second, - | ⟨third, more⟩⟩⟩
    · cases h
      rfl
    · cases follow_single rfl h
      rfl
    · cases follow_single rfl (follow_single rfl h)
      rfl
    · cases follow_single rfl (follow_single rfl h)
  intro names state h predicate hp
  cases (unfiltered h).symm.trans hp

end Shelf

/-- Of two members the first is shown where a page holds one, with the same loans. -/
theorem Engine.execute_sizedAt_members :
    let e := Shelf.clubs "id"
    let level : Level := ["members"]
    ∃ response, (e.execute Shelf.met .null).outcome = .ok response ∧
      (e.execute (Shelf.met.sizedAt level 1) .null).outcome =
        .ok (response.mapData (e.cutAnswer Shelf.met (· == level.names) (1 : UInt64).toNat)) := by
  intro e level
  have answered : (e.execute Shelf.met .null).outcome.toOption.isSome := by decide +kernel
  obtain ⟨response, h⟩ := Option.isSome_iff_exists.mp answered
  have h := Except.toOption_eq_some.mp h
  refine ⟨response, h, execute_sizedAt e Shelf.met .null rfl (Shelf.queryFree_clubs "id")
    Shelf.filtersBlind_met (fun names asked h => ?_) rfl (fun names asked h _ => ?_) (by decide) h⟩
  · obtain ⟨-, rfl⟩ := Shelf.asksAt_met h
    exact Shelf.loadsRegularly_met
  · obtain ⟨rfl, -⟩ := Shelf.asksAt_met h
    decide

/-- Where books are known by a key that predicates read in another way, a member who is shown alone is
not given the book that was only found for another one. -/
theorem Engine.execute_sizedAt_rekeyed :
    let e := Shelf.clubs "fields.id"
    let level : Level := ["members"]
    (e.QueryFree .null ∧ Shelf.met.FiltersBlind .null ∧
      ∀ below f t, Relation.ReflTransGen (Batch.Leads e ⟨Shelf.met, .null⟩)
          (e.rootBatch Shelf.club [Shelf.membership]) below →
        below.Follows e ⟨Shelf.met, .null⟩ f t → Computes below.resource f →
          UniformIds ((below.records.map (held ⟨Shelf.met, .null⟩ below.resource f)).flatMap
            (linkedIds t.resource.idKey)) ∧ ∀ key ∈ t.sort, OneKind (t.stored e) key.path) ∧
    ∃ response other, (e.execute Shelf.met .null).outcome = .ok response ∧
      (e.execute (Shelf.met.sizedAt level 1) .null).outcome = .ok other ∧
        other ≠ response.mapData (e.cutAnswer Shelf.met (· == level.names) (1 : UInt64).toNat) := by
  intro e level
  refine ⟨⟨Shelf.queryFree_clubs _, Shelf.filtersBlind_met, fun below f t reached follows computes => ?_⟩, ?_⟩
  · rcases Shelf.follows_clubs reached follows with ⟨rfl, rfl, rfl⟩ | ⟨rfl, rfl, rfl⟩
    · exact absurd rfl (computes "members" "clubs" rfl)
    · exact ⟨Shelf.uniformIds_carried _, by simp [Shelf.carried, Shelf.loaned, Target.at]⟩
  · have answered : (e.execute Shelf.met .null).outcome.toOption.isSome := by decide +kernel
    have again : (e.execute (Shelf.met.sizedAt level 1) .null).outcome.toOption.isSome := by
      decide +kernel
    have differ : (e.execute (Shelf.met.sizedAt level 1) .null).outcome.toOption.map
          (fun response => response.data.text) ≠
        (e.execute Shelf.met .null).outcome.toOption.map fun response =>
          (e.cutAnswer Shelf.met (· == level.names) (1 : UInt64).toNat response.data).text := by
      decide +kernel
    obtain ⟨response, hresponse⟩ := Option.isSome_iff_exists.mp answered
    obtain ⟨other, hother⟩ := Option.isSome_iff_exists.mp again
    refine ⟨response, other, Except.toOption_eq_some.mp hresponse, Except.toOption_eq_some.mp hother,
      fun same => differ ?_⟩
    rw [hresponse, hother, same]
    rfl

end RecordGraph
