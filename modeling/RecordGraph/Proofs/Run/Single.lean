import RecordGraph.Proofs.Run.Get
import RecordGraph.Proofs.Run.Listing

/-!
Reading one record. A query for a record or for a field reads the first record that it finds, renders it
as a batch of its own, and answers with the row of it.
-/
namespace RecordGraph

namespace Engine
variable {e : Engine} {ctx : Context} {r : Resource} {endpoint : Endpoint} {source : String}

/-- What a query for a record or a field reads: the fields that it shows, and the record. -/
inductive ReadsOne (e : Engine) (ctx : Context) (r : Resource) (endpoint : Endpoint) (source : String) :
    List Field → Record → Prop
  | intro {access : Access} {fields : List Field} {p : Plan} {fetched : Fetched} {record : Record}
    (allowed : can r ("get." ++ endpoint.name) ctx none = .ok access)
    (opened : access.isDenied = false)
    (taken : takeFields r "get" Level.root ctx e.settings = .ok fields)
    (planned : e.plan ctx r endpoint access source = .ok p)
    (stored : e.store.fetch p.fetch = .ok fetched)
    (first : fetched.records.head? = some record) : ReadsOne e ctx r endpoint source fields record

/-- The fields that a query for a record shows are some of its resource. -/
theorem ReadsOne.sublist {fields : List Field} {record : Record}
    (h : e.ReadsOne ctx r endpoint source fields record) (field : ctx.query.field = none) :
    fields.Sublist r.fields := by
  obtain ⟨-, -, taken, -, -, -⟩ := h
  rw [takeFields_list "get" e.settings field] at taken
  exact permitted_sublist taken

theorem theRecord_eq_ok {q : Query} {fetched : Fetched} {record : Record} :
    theRecord q r endpoint fetched = .ok record ↔ fetched.records.head? = some record := by
  unfold theRecord
  cases fetched.records with
  | nil => by_cases h : endpoint = .resource <;> simp [h]
  | cons first rest => simp

/-- A query for a record or a field answers with the one row that is rendered of its record. -/
theorem getResource_one (single : endpoint ≠ .resource) (found : e.findResource ctx.query = .ok r)
    (stored : r.source = some source) {response : Response} :
    (e.getResource ctx endpoint none).outcome = .ok response ↔
      ∃ fields record rows, e.ReadsOne ctx r endpoint source fields record ∧
        (e.renderRoot ctx r fields [some record]).outcome = .ok rows ∧
        response = ⟨rows.headD .null, []⟩ := by
  rw [outcome_getResource]
  constructor
  · rintro ⟨o, l, rows, hopen, loads, hrows, rfl⟩
    obtain ⟨hr, allowed, opened, taken⟩ := opening_eq_ok.mp hopen
    obtain rfl : r = o.resource := Except.ok.inj (found.symm.trans hr)
    cases loads with
    | computed unstored => cases stored.symm.trans unstored
    | list _ planned _ many => exact absurd ((many_of_plan planned).mp many).1 single
    | one stored' planned fetches _ first =>
      obtain rfl := Option.some.inj (stored.symm.trans stored')
      exact ⟨_, _, rows, .intro allowed opened taken planned fetches (theRecord_eq_ok.mp first), hrows,
        rfl⟩
  · rintro ⟨fields, record, rows, ⟨allowed, opened, taken, planned, fetches, first⟩, hrows, rfl⟩
    have one := Bool.eq_false_iff.mpr fun many => single ((many_of_plan planned).mp many).1
    exact ⟨⟨r, _, fields⟩, _, rows, opening_eq_ok.mpr ⟨found, allowed, opened, taken⟩,
      .one stored planned fetches one (theRecord_eq_ok.mpr first), hrows, rfl⟩

/-- A row holds the value of each column under the name of its field. -/
theorem get?_cells {fields : List Field} {columns : List (List Value)}
    {R : Field → List Value → Prop} (distinct : (fields.map Field.name).Nodup)
    (h : List.Forall₂ R fields columns) {f : Field} (hf : f ∈ fields) :
    ∃ column, R f column ∧ ∀ row, Entries.get? (Entries.ofList
      (((fields.map Field.name).zip columns).map fun p => (p.1, cell p.2 row))) f.name =
        some (cell column row) := by
  obtain ⟨hlength, hzip⟩ := List.forall₂_iff_zip.mp h
  obtain ⟨column, -, hmem⟩ :=
    (List.forall₂_iff_zip.mpr ⟨hlength, id⟩ : List.Forall₂ (fun f column =>
      (f, column) ∈ fields.zip columns) fields columns).flip.exists_left hf
  refine ⟨column, hzip hmem, fun row => ?_⟩
  have pairs : (fields.map Field.name).zip columns =
      (fields.zip columns).map fun p => (p.1.name, p.2) := List.zip_map_left ..
  have keys : (((fields.map Field.name).zip columns).map fun p => (p.1, cell p.2 row)).map Prod.fst =
      fields.map Field.name := by
    rw [List.map_map]
    exact List.map_fst_zip (by simp [hlength])
  have held : (f.name, cell column row) ∈
      ((fields.map Field.name).zip columns).map fun p => (p.1, cell p.2 row) := by
    rw [pairs, List.map_map]
    exact List.mem_map.mpr ⟨_, hmem, rfl⟩
  exact Entries.get?_ofList (by rw [keys]; exact distinct) held

/-- So does the one row of a record. -/
theorem get?_assemble {fields : List Field} {columns : List (List Value)}
    {R : Field → List Value → Prop} (distinct : (fields.map Field.name).Nodup)
    (h : List.Forall₂ R fields columns) {f : Field} (hf : f ∈ fields) :
    ∃ column, R f column ∧
      ((assemble false (fields.map Field.name) columns 1).headD .null).get? f.name =
        some (cell column 0) := by
  obtain ⟨column, hcolumn, hget⟩ := get?_cells distinct h hf
  exact ⟨column, hcolumn, hget 0⟩

end Engine

end RecordGraph
