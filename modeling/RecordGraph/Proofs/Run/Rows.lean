import RecordGraph.Proofs.Run.Trace
import RecordGraph.Run.Render

/-!
One level of rendering. A batch is made of its columns; one that is rendered deeply comes from the batch
of its targets. Where no relation is followed, a batch becomes one row for each record, whatever the
others are.
-/
namespace RecordGraph

namespace Engine
variable {e : Engine} {ctx : Context} {r : Resource} {f : Field} {b : Batch} {scope : Scope}

/-- The value of a relation with the given targets. -/
def linkedValue (f : Field) (items : List Value) : Value :=
  if f.isList then .arr items else items.headD .null

namespace Target
variable (t : Target) (f : Field) (groups : List (List Record))

/-- The targets that are rendered for each record, of those that were loaded. -/
def kept : List (List Record) :=
  groups.map fun group => group.take (if f.isList then t.size.toNat else 1)

/-- The batch of the targets of all records. -/
def child : Batch := ⟨some f, t.resource, t.fields, (t.kept f groups).flatten.map some, t.level⟩

/-- The values of a relation, from its rendered targets. -/
def dealt (rendered : List Value) : List Value :=
  (deal ((t.kept f groups).map List.length) rendered).map (linkedValue f)

end Target

/-! Columns -/

/-- A relation is rendered with its targets loaded and rendered as one batch. -/
theorem outcome_renderRelated {render : Renderer} {link : String} {records : List (Option Record)}
    {values column : List Value} {level : Level} :
    (e.renderRelated ctx render r f link records values level).outcome = .ok column ↔
      ∃ t groups rendered, e.target ctx r f link level = .ok t ∧
        (e.loadTargets r f t records values).outcome = .ok groups ∧
        (render (t.child f groups)).outcome = .ok rendered ∧ column = t.dealt f groups rendered := by
  unfold renderRelated
  rw [Run.outcome_bind]
  constructor
  · rintro ⟨t, ht, h⟩
    obtain ⟨groups, hgroups, h⟩ := Run.outcome_bind.mp h
    obtain ⟨rendered, hrendered, h⟩ := Run.outcome_bind.mp h
    exact ⟨t, groups, rendered, ht, hgroups, hrendered, (Except.ok.inj h).symm⟩
  · rintro ⟨t, groups, rendered, ht, hgroups, hrendered, rfl⟩
    exact ⟨t, ht, Run.outcome_bind.mpr ⟨groups, hgroups,
      Run.outcome_bind.mpr ⟨rendered, hrendered, rfl⟩⟩⟩

/-- A column that is rendered deeply is that of its relation. -/
theorem outcome_renderColumn_deep {render : Renderer} (deep : isDeep ctx scope f b.level = true)
    {link : String} (hlink : f.link? = some link) {column : List Value} :
    (e.renderColumn ctx render scope b f).outcome = .ok column ↔
      ∃ values, b.records.mapM (fieldValue ctx b.resource f) = .ok values ∧
        (e.renderRelated ctx render b.resource f link b.records values b.level).outcome =
          .ok column := by
  unfold renderColumn
  rw [Run.outcome_bind]
  simp only [deep, Bool.not_true, Bool.false_eq_true, if_false, hlink]
  rfl

/-- Below a targeted field, only relations can be rendered deeply. -/
theorem link?_of_renderColumn {render : Renderer} (deep : isDeep ctx scope f b.level = true)
    (below : (ctx.query.field.isSome && b.level.isEmpty) = false) {column : List Value}
    (h : (e.renderColumn ctx render scope b f).outcome = .ok column) : ∃ link, f.link? = some link := by
  unfold renderColumn at h
  obtain ⟨values, -, h⟩ := Run.outcome_bind.mp h
  cases hlink : f.link? with
  | some link => exact ⟨link, rfl⟩
  | none =>
    simp only [deep, Bool.not_true, Bool.false_eq_true, if_false, hlink, below] at h
    cases h

/-! Rows -/

/-- A batch is rendered column by column. -/
theorem outcome_render {fuel : Nat} {rows : List Value} :
    (e.render ctx (fuel + 1) b).outcome = .ok rows ↔
      ∃ scope columns, ctx.query.scope b.level = .ok scope ∧
        List.Forall₂ (fun f column =>
          (e.renderColumn ctx (e.render ctx fuel) scope b f).outcome = .ok column) b.fields columns ∧
        rows = assemble (ctx.query.field.isSome && b.level.isEmpty) (b.fields.map Field.name) columns
          b.records.length := by
  rw [render]
  simp only [← Run.outcome_each_eq_ok]
  constructor
  · intro h
    obtain ⟨-, -, h⟩ := Run.outcome_bind.mp h
    obtain ⟨scope, hscope, h⟩ := Run.outcome_bind.mp h
    obtain ⟨columns, hcolumns, h⟩ := Run.outcome_bind.mp h
    exact ⟨scope, columns, hscope, hcolumns, (Except.ok.inj h).symm⟩
  · rintro ⟨scope, columns, hscope, hcolumns, rfl⟩
    exact Run.outcome_bind.mpr ⟨(), rfl, Run.outcome_bind.mpr ⟨scope, hscope,
      Run.outcome_bind.mpr ⟨columns, hcolumns, rfl⟩⟩⟩

/-! Rows without relations -/

/-- What a field shows of a record where its relation is not followed. -/
def shown (e : Engine) (ctx : Context) (r : Resource) (f : Field) (record : Option Record) : Value :=
  shallow ((e.server.target? r f).map Resource.idKey)
    ((fieldValue ctx r f record).toOption.getD .null)

/-- A record as a row of the given fields. -/
def row (e : Engine) (ctx : Context) (r : Resource) (fields : List Field) (record : Option Record) :
    Value :=
  .object (fields.map fun f => (f.name, e.shown ctx r f record))

theorem renderColumn_flat {render : Renderer} {scope : Scope} {b : Batch} {f : Field}
    (flat : isDeep ctx scope f b.level = false) {column : List Value} :
    (e.renderColumn ctx render scope b f).outcome = .ok column ↔
      (∀ record ∈ b.records, ∃ v, fieldValue ctx b.resource f record = .ok v) ∧
        column = b.records.map (e.shown ctx b.resource f) := by
  unfold renderColumn
  rw [Run.outcome_bind]
  simp only [flat, Bool.not_false, if_true]
  constructor
  · rintro ⟨values, hvalues, h⟩
    cases h
    obtain ⟨hall, rfl⟩ := (Except.mapM_eq_ok_map Value.null).mp hvalues
    exact ⟨hall, List.map_map⟩
  · rintro ⟨hall, rfl⟩
    exact ⟨_, (Except.mapM_eq_ok_map Value.null).mpr ⟨hall, rfl⟩, congrArg Except.ok List.map_map⟩

/-- A record as a row of what each field shows of it; collapsed, it is what the first field shows. -/
def assembled (collapse : Bool) (fields : List Field) (shows : Field → Option Record → Value)
    (record : Option Record) : Value :=
  if collapse then (fields.head?.map fun f => shows f record).getD .null
  else .object (fields.map fun f => (f.name, shows f record))

theorem assemble_columns (collapse : Bool) (fields : List Field)
    (shows : Field → Option Record → Value) (records : List (Option Record)) :
    assemble collapse (fields.map Field.name) (fields.map fun f => records.map (shows f))
      records.length = records.map (assembled collapse fields shows) := by
  unfold assemble
  apply List.ext_getElem
  · simp
  · intro i h _
    have hi : i < records.length := by simpa using h
    rw [List.getElem_map, List.getElem_map, List.getElem_range, assembled]
    cases collapse with
    | true =>
      cases fields with
      | nil => rfl
      | cons f fields => simp [cell, List.getElem?_eq_getElem hi]
    | false =>
      simp only [Bool.false_eq_true, if_false]
      rw [List.zip_map', List.map_map]
      refine congrArg Value.object (List.map_congr_left fun f _ => ?_)
      simp [cell, List.getElem?_eq_getElem hi]

/-- A flat batch is rendered if each of its fields has a value on each of its records. -/
theorem render_flat {fuel : Nat} {b : Batch} {scope : Scope} (hfield : ctx.query.field = none)
    (hscope : ctx.query.scope b.level = .ok scope)
    (flat : ∀ f ∈ b.fields, isDeep ctx scope f b.level = false) {rows : List Value} :
    (e.render ctx (fuel + 1) b).outcome = .ok rows ↔
      (∀ f ∈ b.fields, ∀ record ∈ b.records, ∃ v, fieldValue ctx b.resource f record = .ok v) ∧
        rows = b.records.map (e.row ctx b.resource b.fields) := by
  have hcolumns {columns : List (List Value)} : List.Forall₂ (fun f column =>
      (e.renderColumn ctx (e.render ctx fuel) scope b f).outcome = .ok column) b.fields columns ↔
        (∀ f ∈ b.fields, ∀ record ∈ b.records, ∃ v, fieldValue ctx b.resource f record = .ok v) ∧
          columns = b.fields.map fun f => b.records.map (e.shown ctx b.resource f) :=
    List.forall₂_iff_map fun f hf column => renderColumn_flat (flat f hf)
  have hcollapse : (ctx.query.field.isSome && b.level.isEmpty) = false := by simp [hfield]
  have rows_eq := assemble_columns false b.fields (e.shown ctx b.resource) b.records
  rw [outcome_render, hcollapse]
  constructor
  · rintro ⟨scope', columns, hscope', hrun, rfl⟩
    cases hscope.symm.trans hscope'
    obtain ⟨hall, rfl⟩ := hcolumns.mp hrun
    exact ⟨hall, rows_eq⟩
  · rintro ⟨hall, rfl⟩
    exact ⟨scope, _, hscope, hcolumns.mpr ⟨hall, rfl⟩, rows_eq.symm⟩

end Engine
end RecordGraph
