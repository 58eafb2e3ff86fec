import RecordGraph.Proofs.Run.Trace
import RecordGraph.Run.Get

/-!
Stages of a read. A resource is opened to the requester before the store is asked for anything; then the
records to show are loaded; what is rendered of them makes the answer.
-/
namespace RecordGraph

namespace Engine
variable {e : Engine} {ctx : Context} {endpoint : Endpoint} {path : Option String}

/-! Opening a resource -/

/-- A resource that is open to the requester: how far, and with which fields. -/
structure Opening where
  resource : Resource
  access : Access
  fields : List Field

/-- Open the resource that a query targets. -/
def opening (e : Engine) (ctx : Context) (endpoint : Endpoint) : Except QueryError Opening :=
  (e.findResource ctx.query).bind fun r =>
    (can r ("get." ++ endpoint.name) ctx none).bind fun access =>
      if access.isDenied then .error (.forbidden ("get." ++ endpoint.name) r.id)
      else (takeFields r "get" Level.root ctx e.settings).map fun fields => ⟨r, access, fields⟩

variable {o : Opening}

theorem opening_eq_ok : e.opening ctx endpoint = .ok o ↔
    e.findResource ctx.query = .ok o.resource ∧
      can o.resource ("get." ++ endpoint.name) ctx none = .ok o.access ∧ o.access.isDenied = false ∧
      takeFields o.resource "get" Level.root ctx e.settings = .ok o.fields := by
  obtain ⟨r, access, fields⟩ := o
  simp only [opening, Except.bind_eq_ok]
  constructor
  · rintro ⟨r', found, access', allowed, h⟩
    cases opened : access'.isDenied with
    | true => simp [opened] at h
    | false =>
      rw [opened] at h
      obtain ⟨fields', taken, same⟩ := Except.map_eq_ok.mp h
      cases same
      exact ⟨found, allowed, opened, taken⟩
  · rintro ⟨found, allowed, opened, taken⟩
    refine ⟨r, found, access, allowed, ?_⟩
    rw [opened, taken]
    rfl

/-! Loading records -/

/-- What a read shows: fields of records, and for a list the continuations that go with it. -/
structure Loaded where
  fields : List Field
  records : List (Option Record)
  list? : Option (Entries PageMeta)

/-- The answer that the rows of what is shown make. -/
def Loaded.answer (l : Loaded) (rows : List Value) : Response :=
  match l.list? with
  | some page => ⟨.arr rows, page⟩
  | none => ⟨rows.headD .null, []⟩

/-- What is shown of the records that were fetched: a page of a list, or one of them. -/
def showing (e : Engine) (ctx : Context) (endpoint : Endpoint) (path : Option String) (o : Opening)
    (p : Plan) (fetched : Fetched) : Except QueryError Loaded :=
  if p.many then
    (e.turnPage o.resource p.window path fetched).map fun turned =>
      ⟨o.fields, turned.1.map some, some turned.2⟩
  else
    (theRecord ctx.query o.resource endpoint fetched).map fun record => ⟨o.fields, [some record], none⟩

/-- Load what is shown of a resource that is kept in a source. -/
def loadFrom (e : Engine) (ctx : Context) (endpoint : Endpoint) (path : Option String) (o : Opening)
    (source : String) : Run Loaded :=
  Run.ofExcept (e.plan ctx o.resource endpoint o.access source) >>= fun p =>
    e.store.runFetch p.fetch >>= fun fetched => Run.ofExcept (e.showing ctx endpoint path o p fetched)

/-- Load what is shown of a resource that is open; a singleton without a source has computed fields only. -/
def load (e : Engine) (ctx : Context) (endpoint : Endpoint) (path : Option String) (o : Opening) :
    Run Loaded :=
  match o.resource.source with
  | some source => e.loadFrom ctx endpoint path o source
  | none =>
    if o.resource.singleton then pure ⟨o.fields.filter fun f => f.source.isComputed, [none], none⟩
    else Run.fail (.misconfigured (.noSource o.resource.id))

theorem load_stored {source : String} (stored : o.resource.source = some source) :
    e.load ctx endpoint path o = e.loadFrom ctx endpoint path o source := by
  rw [load, stored]

/-- What is loaded, by what the resource is and by what the store answers. -/
inductive Loads (e : Engine) (ctx : Context) (endpoint : Endpoint) (path : Option String) (o : Opening) :
    Loaded → Prop
  | computed (unstored : o.resource.source = none) (single : o.resource.singleton = true) :
      Loads e ctx endpoint path o ⟨o.fields.filter fun f => f.source.isComputed, [none], none⟩
  | list {source : String} {p : Plan} {fetched : Fetched} {records : List Record}
      {page : Entries PageMeta} (stored : o.resource.source = some source)
      (planned : e.plan ctx o.resource endpoint o.access source = .ok p)
      (fetches : e.store.fetch p.fetch = .ok fetched) (many : p.many = true)
      (turned : e.turnPage o.resource p.window path fetched = .ok (records, page)) :
      Loads e ctx endpoint path o ⟨o.fields, records.map some, some page⟩
  | one {source : String} {p : Plan} {fetched : Fetched} {record : Record}
      (stored : o.resource.source = some source)
      (planned : e.plan ctx o.resource endpoint o.access source = .ok p)
      (fetches : e.store.fetch p.fetch = .ok fetched) (single : p.many = false)
      (first : theRecord ctx.query o.resource endpoint fetched = .ok record) :
      Loads e ctx endpoint path o ⟨o.fields, [some record], none⟩

variable {l : Loaded}

/-- Some of the fields that are open are shown. -/
theorem Loads.sublist (h : e.Loads ctx endpoint path o l) : l.fields.Sublist o.fields := by
  cases h with
  | computed => exact List.filter_sublist
  | list | one => exact List.Sublist.refl _

theorem load_eq_ok : (e.load ctx endpoint path o).outcome = .ok l ↔ e.Loads ctx endpoint path o l := by
  constructor
  · intro h
    unfold load at h
    split at h
    · rename_i source stored
      obtain ⟨p, planned, h⟩ := Run.outcome_bind.mp h
      obtain ⟨fetched, fetches, h⟩ := Run.outcome_bind.mp h
      have fetches := Store.answer_eq_ok.mp fetches
      have h : e.showing ctx endpoint path o p fetched = .ok l := h
      unfold showing at h
      split at h
      · rename_i many
        obtain ⟨⟨records, page⟩, turned, rfl⟩ := Except.map_eq_ok.mp h
        exact .list stored planned fetches many turned
      · rename_i single
        obtain ⟨record, first, rfl⟩ := Except.map_eq_ok.mp h
        exact .one stored planned fetches (Bool.eq_false_iff.mpr single) first
    · rename_i unstored
      split at h
      · rename_i single
        cases h
        exact .computed unstored single
      · cases h
  · intro h
    unfold load
    cases h with
    | computed unstored single =>
      rw [unstored, single]
      rfl
    | list stored planned fetches many turned =>
      rw [stored]
      refine Run.outcome_bind.mpr ⟨_, planned, Run.outcome_bind.mpr
        ⟨_, Store.answer_eq_ok.mpr fetches, ?_⟩⟩
      change e.showing ctx endpoint path o _ _ = _
      rw [showing, if_pos many, turned]
      rfl
    | one stored planned fetches single first =>
      rw [stored]
      refine Run.outcome_bind.mpr ⟨_, planned, Run.outcome_bind.mpr
        ⟨_, Store.answer_eq_ok.mpr fetches, ?_⟩⟩
      change e.showing ctx endpoint path o _ _ = _
      rw [showing, if_neg (by simp [single]), first]
      rfl

/-- Nothing is rendered while records are loaded. -/
theorem handed_load : (e.load ctx endpoint path o).handed = [] := by
  unfold load
  split
  · exact Run.handed_bind_eq_nil rfl fun _ => Run.handed_bind_eq_nil rfl fun _ => rfl
  · split <;> rfl

/-! Whole reads -/

/-- The read of a stored resource that is open, with the fields it shows. -/
def readStored (e : Engine) (ctx : Context) (r : Resource) (endpoint : Endpoint) (path : Option String)
    (access : Access) (fields : List Field) (source : String) : Run Response := do
  let plan ← e.plan ctx r endpoint access source
  let fetched ← e.store.runFetch plan.fetch
  if plan.many then
    let (records, page) ← e.turnPage r plan.window path fetched
    let rows ← e.renderRoot ctx r fields (records.map some)
    return { data := .arr rows, page := page }
  else
    let record ← theRecord ctx.query r endpoint fetched
    let rows ← e.renderRoot ctx r fields [some record]
    return { data := rows.headD .null }

/-- To read is to load what is shown and to render it. -/
theorem readStored_eq {source : String} :
    e.readStored ctx o.resource endpoint path o.access o.fields source =
      e.loadFrom ctx endpoint path o source >>= fun l =>
        e.renderRoot ctx o.resource l.fields l.records >>= fun rows => pure (l.answer rows) := by
  unfold readStored
  simp only [loadFrom, bind_assoc]
  refine bind_congr fun p => bind_congr fun fetched => ?_
  unfold showing
  cases p.many with
  | true => cases e.turnPage o.resource p.window path fetched <;> rfl
  | false => cases theRecord ctx.query o.resource endpoint fetched <;> rfl

/-- A read opens a resource, loads what it shows, and answers with what is rendered of this. -/
theorem getResource_eq : e.getResource ctx endpoint path =
    Run.ofExcept (e.opening ctx endpoint) >>= fun o => e.load ctx endpoint path o >>= fun l =>
      e.renderRoot ctx o.resource l.fields l.records >>= fun rows => pure (l.answer rows) := by
  unfold getResource opening
  rw [Run.ofExcept_bind]
  refine bind_congr fun r => ?_
  rw [Run.ofExcept_bind]
  refine bind_congr fun access => ?_
  cases access.isDenied with
  | true => rfl
  | false =>
    simp only [Bool.false_eq_true, if_false]
    rw [Run.ofExcept_map]
    refine bind_congr fun fields => ?_
    unfold load
    cases r.source with
    | none => cases r.singleton <;> rfl
    | some source => exact readStored_eq (o := ⟨r, access, fields⟩)

theorem getResource_error {error : QueryError} (h : e.opening ctx endpoint = .error error) :
    (e.getResource ctx endpoint path).outcome = .error error := by
  rw [getResource_eq, h]
  rfl

/-- A read answers if it gets through its stages. -/
theorem outcome_getResource {response : Response} :
    (e.getResource ctx endpoint path).outcome = .ok response ↔
      ∃ o l rows, e.opening ctx endpoint = .ok o ∧ e.Loads ctx endpoint path o l ∧
        (e.renderRoot ctx o.resource l.fields l.records).outcome = .ok rows ∧
        response = l.answer rows := by
  rw [getResource_eq]
  constructor
  · intro h
    obtain ⟨o, opened, h⟩ := Run.outcome_bind.mp h
    obtain ⟨l, loads, h⟩ := Run.outcome_bind.mp h
    obtain ⟨rows, rendered, h⟩ := Run.outcome_bind.mp h
    cases h
    exact ⟨o, l, rows, opened, load_eq_ok.mp loads, rendered, rfl⟩
  · rintro ⟨o, l, rows, opened, loads, rendered, rfl⟩
    exact Run.outcome_bind.mpr ⟨o, opened, Run.outcome_bind.mpr
      ⟨l, load_eq_ok.mpr loads, Run.outcome_bind.mpr ⟨rows, rendered, rfl⟩⟩⟩

end Engine
end RecordGraph
