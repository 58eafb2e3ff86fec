import Mathlib.Logic.Relation
import RecordGraph.Proofs.Entries
import RecordGraph.Proofs.Predicate.Prepare
import RecordGraph.Proofs.Run.Trace
import RecordGraph.Proofs.Store.Memory
import RecordGraph.Run.Get

/-!
Rendering stays within permissions. Whatever is handed over below a batch is reached from it through
relations, each open to the requester, and satisfies the permission and the filter of its level.
-/
namespace RecordGraph

/-- A batch stands one level below another, behind one of its relations. -/
def Batch.Below (e : Engine) (parent child : Batch) : Prop :=
  ∃ f ∈ parent.fields, ∃ link, child.via = some f ∧ f.link? = some link ∧
    e.server.resolveLink parent.resource.space link = some child.resource ∧
    child.level = parent.level.enter f.name

/-- A field of a batch is a relation that is rendered deeply. -/
def Batch.Deep (ctx : Context) (b : Batch) (f : Field) : Prop :=
  f ∈ b.fields ∧ f.link?.isSome ∧
    ∃ scope, ctx.query.scope b.level = .ok scope ∧ Engine.isDeep ctx scope f b.level

/-- The access under which a batch may be rendered. -/
def Batch.access (ctx : Context) (b : Batch) : Except QueryError Access :=
  match b.via with
  | none => can b.resource ("get." ++ ctx.query.endpoint.name) ctx none
  | some f => can b.resource "get.prefetch" ctx (some f)

/-- A batch may be rendered, and its records satisfy the permission and the filter of its level. -/
structure Engine.Permits (e : Engine) (ctx : Context) (b : Batch) : Prop where
  allowed : ∃ access, b.access ctx = .ok access ∧ access.isDenied = false ∧
    ∀ predicate, access.predicate? = some predicate → ∀ record, some record ∈ b.records →
      e.Selects b.resource ctx predicate record
  filtered : ∃ scope, ctx.query.scope b.level = .ok scope ∧
    ∀ predicate, scope.state?.bind Query.filter = some predicate →
      ∀ record, some record ∈ b.records → e.Selects b.resource ctx predicate record

namespace Engine
variable {e : Engine} {ctx : Context} {r : Resource} {f : Field} {link : String} {t : Target}

/-- A batch is permitted once it is open and its records satisfy what its level prepares. -/
theorem permits_of_prepareAll {b : Batch} {access : Access} {scope : Scope} {ps : List Value}
    (haccess : b.access ctx = .ok access) (hopen : access.isDenied = false)
    (hscope : ctx.query.scope b.level = .ok scope)
    (prepared : e.prepareAll b.resource ctx access (scope.state?.bind Query.filter) = .ok ps)
    (matched : ∀ record, some record ∈ b.records →
      ∀ p ∈ ps, Store.isMatch (some p) record = .ok true) : e.Permits ctx b := by
  have selected (record : Record) (h : some record ∈ b.records) :=
    selects_of_prepareAll prepared record (matched record h)
  exact ⟨⟨access, haccess, hopen, fun p hp record h => (selected record h).1 p hp⟩,
    ⟨scope, hscope, fun p hp record h => (selected record h).2 p hp⟩⟩

/-! Loading -/

/-- What is settled of a target before anything is read: the relation leads to it, it is open to the
requester, and its level is prepared. -/
structure Settled (e : Engine) (ctx : Context) (r : Resource) (f : Field) (link : String) (level : Level)
    (t : Target) (access : Access) (scope : Scope) : Prop where
  resolved : e.server.resolveLink r.space link = some t.resource
  entered : t.level = level.enter f.name
  granted : can t.resource "get.prefetch" ctx (some f) = .ok access
  allowed : access.isDenied = false
  taken : takeFields t.resource "get" t.level ctx e.settings = .ok t.fields
  governed : ctx.query.scope t.level = .ok scope
  size : t.size = scope.pageSize e.settings.pageSize
  prepared : e.prepareAll t.resource ctx access (scope.state?.bind Query.filter) = .ok t.predicates
  sorted : e.prepareSort t.resource (scope.state?.bind Query.sort) = .ok t.sort
  stored : t.resource.source = some t.source

theorem target_eq_ok {level : Level} :
    e.target ctx r f link level = .ok t ↔
      ∃ access scope, e.Settled ctx r f link level t access scope := by
  unfold target
  constructor
  · intro h
    cases hrelated : e.server.resolveLink r.space link with
    | none =>
      rw [hrelated] at h
      cases h
    | some related =>
      rw [hrelated] at h
      obtain ⟨access, haccess, h⟩ := Except.monad_bind_eq_ok.mp h
      cases hopen : access.isDenied with
      | true =>
        rw [hopen] at h
        cases h
      | false =>
        rw [hopen] at h
        obtain ⟨fields, hfields, h⟩ := Except.monad_bind_eq_ok.mp h
        obtain ⟨scope, hscope, h⟩ := Except.monad_bind_eq_ok.mp h
        obtain ⟨predicates, hpredicates, h⟩ := Except.monad_bind_eq_ok.mp h
        obtain ⟨sort, hsort, h⟩ := Except.monad_bind_eq_ok.mp h
        cases hsource : related.source with
        | none =>
          rw [hsource] at h
          cases h
        | some source =>
          rw [hsource] at h
          cases h
          exact ⟨access, scope, ⟨hrelated, rfl, haccess, hopen, hfields, hscope, rfl, hpredicates,
            hsort, hsource⟩⟩
  · rintro ⟨access, scope, h⟩
    obtain ⟨related, level', fields, size, predicates, sort, source⟩ := t
    obtain ⟨resolved, rfl, granted, allowed, taken, governed, rfl, prepared, sorted, stored⟩ := h
    dsimp only at resolved granted taken governed prepared sorted stored
    simp only [resolved, granted, allowed, taken, governed, prepared, sorted, stored,
      Except.monad_bind, Except.ok_bind, Bool.false_eq_true, if_false]
    rfl

theorem isMatch_of_loadStored {source path : String} {records : List (Option Record)}
    {groups : List (List Record)}
    (h : (e.loadStored r f t source path records).outcome = .ok groups) :
    ∀ group ∈ groups, ∀ record ∈ group, Store.isMatch (conjoin t.predicates) record = .ok true := by
  obtain ⟨found, hfound, h⟩ := Run.outcome_bind.mp h
  cases h
  have matched := Store.isMatch_of_fetchRelated (Store.answer_eq_ok.mp hfound)
  intro group hgroup record hrecord
  obtain ⟨id, -, rfl⟩ := List.mem_map.mp hgroup
  cases hl : found.lookup (idText id) with
  | none => simp [hl] at hrecord
  | some group =>
    rw [hl] at hrecord
    exact matched _ (Entries.mem_of_get? hl) record hrecord

theorem mem_of_mem_pick {key : String} {sorted : Bool} {fetched : List Record} {ids : List Value}
    {record : Record} (h : record ∈ pick key sorted fetched ids) : record ∈ fetched := by
  unfold pick at h
  cases sorted with
  | true => exact List.mem_of_mem_filter h
  | false =>
    obtain ⟨id, -, h⟩ := List.mem_filterMap.mp h
    exact List.mem_reverse.mp (List.mem_of_find?_eq_some h)

theorem isMatch_of_loadComputed {values : List Value} {groups : List (List Record)}
    (h : (e.loadComputed t values).outcome = .ok groups) :
    ∀ group ∈ groups, ∀ record ∈ group, Store.isMatch (conjoin t.predicates) record = .ok true := by
  unfold loadComputed at h
  dsimp only at h
  split at h
  · cases h
    intro group hgroup record hrecord
    obtain ⟨row, -, rfl⟩ := List.mem_map.mp hgroup
    cases hrecord
  · rename_i ids _
    obtain ⟨fetched, hfetched, h⟩ := Run.outcome_bind.mp h
    cases h
    have matched := Store.isMatch_of_fetch (Store.answer_eq_ok.mp hfetched)
    intro group hgroup record hrecord
    obtain ⟨row, -, rfl⟩ := List.mem_map.mp hgroup
    have joined := Store.isMatch_conjoin.mp (matched record (mem_of_mem_pick hrecord))
    exact Store.isMatch_conjoin.mpr fun p hp => joined p (List.mem_cons_of_mem _ hp)

/-- Every target that is loaded satisfies what its level prepares. -/
theorem isMatch_of_loadTargets {records : List (Option Record)} {values : List Value}
    {groups : List (List Record)} (h : (e.loadTargets r f t records values).outcome = .ok groups) :
    ∀ group ∈ groups, ∀ record ∈ group, ∀ p ∈ t.predicates,
      Store.isMatch (some p) record = .ok true := by
  have joined : ∀ group ∈ groups, ∀ record ∈ group,
      Store.isMatch (conjoin t.predicates) record = .ok true := by
    unfold loadTargets at h
    split at h
    · exact isMatch_of_loadStored h
    · exact isMatch_of_loadComputed h
  intro group hgroup record hrecord
  exact Store.isMatch_conjoin.mp (joined group hgroup record hrecord)

theorem handed_loadTargets (records : List (Option Record)) (values : List Value) :
    (e.loadTargets r f t records values).handed = [] := by
  rw [List.eq_nil_iff_forall_not_mem]
  intro b h
  unfold loadTargets at h
  split at h
  · obtain h | ⟨found, -, h⟩ := Run.mem_handed_bind.mp h <;> cases h
  · unfold loadComputed at h
    dsimp only at h
    split at h
    · cases h
    · obtain h | ⟨found, -, h⟩ := Run.mem_handed_bind.mp h <;> cases h

/-! Rendering -/

/-- The batch of a relation is permitted: its records are cut from what was loaded for its target. -/
theorem permits_related {level : Level} {records : List (Option Record)} {values : List Value}
    {groups : List (List Record)} (ht : e.target ctx r f link level = .ok t)
    (hgroups : (e.loadTargets r f t records values).outcome = .ok groups) (keep : Nat) :
    e.Permits ctx ⟨some f, t.resource, t.fields,
      ((groups.map fun group => group.take keep).flatten).map some, t.level⟩ := by
  obtain ⟨_, _, settled⟩ := target_eq_ok.mp ht
  have matched := isMatch_of_loadTargets hgroups
  refine permits_of_prepareAll settled.granted settled.allowed settled.governed settled.prepared
    fun record h => ?_
  obtain ⟨_, hmem, ⟨⟩⟩ := List.mem_map.mp h
  obtain ⟨_, hgroup, hrecord⟩ := List.mem_flatten.mp hmem
  obtain ⟨group, hloaded, rfl⟩ := List.mem_map.mp hgroup
  exact matched group hloaded record (List.mem_of_mem_take hrecord)

/-- A relation that is rendered hands over what the batch of its targets does. -/
theorem renderRelated_eq_ok {render : Renderer} {parent : Batch} {values rows : List Value}
    (hf : f ∈ parent.fields) (hlink : f.link? = some link)
    (h : (e.renderRelated ctx render parent.resource f link parent.records values
      parent.level).outcome = .ok rows) :
    ∃ child rendered, (render child).outcome = .ok rendered ∧ child.via = some f ∧
      parent.Below e child ∧ e.Permits ctx child ∧
      (e.renderRelated ctx render parent.resource f link parent.records values
        parent.level).handed = (render child).handed := by
  unfold renderRelated at h ⊢
  obtain ⟨t, ht, h⟩ := Run.outcome_bind.mp h
  rw [Run.handed_bind_quiet ht rfl]
  obtain ⟨groups, hgroups, h⟩ := Run.outcome_bind.mp h
  rw [Run.handed_bind_quiet hgroups (handed_loadTargets _ _)]
  obtain ⟨rendered, hrendered, -⟩ := Run.outcome_bind.mp h
  obtain ⟨_, _, settled⟩ := target_eq_ok.mp ht
  refine ⟨_, rendered, hrendered, rfl, ⟨f, hf, link, rfl, hlink, settled.resolved, settled.entered⟩,
    permits_related ht hgroups _, ?_⟩
  rw [Run.handed_bind hrendered, Run.handed_pure, List.append_nil]

/-- A column hands over nothing, unless it is a relation that is rendered deeply. -/
theorem renderColumn_eq_ok {render : Renderer} {scope : Scope} {parent : Batch} {rows : List Value}
    (hscope : ctx.query.scope parent.level = .ok scope) (hf : f ∈ parent.fields)
    (h : (e.renderColumn ctx render scope parent f).outcome = .ok rows) :
    ((e.renderColumn ctx render scope parent f).handed = [] ∧ ¬parent.Deep ctx f) ∨
      ∃ child rendered, (render child).outcome = .ok rendered ∧ child.via = some f ∧
        parent.Below e child ∧ e.Permits ctx child ∧
        (e.renderColumn ctx render scope parent f).handed = (render child).handed := by
  unfold renderColumn at h ⊢
  obtain ⟨values, hvalues, h⟩ := Run.outcome_bind.mp h
  rw [Run.handed_bind_quiet hvalues rfl]
  cases hdeep : isDeep ctx scope f parent.level with
  | false =>
    refine .inl ⟨by simp, ?_⟩
    rintro ⟨-, -, scope', hscope', hdeep'⟩
    cases hscope.symm.trans hscope'
    rw [hdeep] at hdeep'
    cases hdeep'
  | true =>
    simp only [hdeep, Bool.not_true, Bool.false_eq_true, if_false] at h ⊢
    cases hlink : f.link? with
    | some link =>
      rw [hlink] at h
      exact .inr (renderRelated_eq_ok hf hlink h)
    | none =>
      refine .inl ⟨?_, fun deep => by simpa [hlink] using deep.2.1⟩
      dsimp only
      split <;> rfl

/-- A batch that is rendered one level below another, with all that it hands over among `below`. -/
structure Opens (e : Engine) (ctx : Context) (fuel : Nat) (top : Batch) (below : List Batch)
    (child : Batch) : Prop where
  renders : ∃ rows, (e.render ctx fuel child).outcome = .ok rows
  reached : top.Below e child
  permits : e.Permits ctx child
  within : ∀ b ∈ (e.render ctx fuel child).handed, b ∈ below

/-- One level of a rendering that succeeds: what is handed over below the batch comes from batches one
level below it, one for each relation that is rendered deeply. -/
theorem render_step {fuel : Nat} {top : Batch} {rows : List Value}
    (h : (e.render ctx (fuel + 1) top).outcome = .ok rows) :
    ∃ below, (e.render ctx (fuel + 1) top).handed = top :: below ∧
      (∀ b ∈ below, ∃ child, Opens e ctx fuel top below child ∧
        b ∈ (e.render ctx fuel child).handed) ∧
      ∀ f, top.Deep ctx f → ∃ child, Opens e ctx fuel top below child ∧ child.via = some f := by
  rw [render] at h ⊢
  obtain ⟨-, -, h⟩ := Run.outcome_bind.mp h
  rw [Run.hand_bind]
  obtain ⟨scope, hscope, h⟩ := Run.outcome_bind.mp h
  rw [Run.handed_bind_quiet hscope rfl]
  obtain ⟨columns, hcolumns, -⟩ := Run.outcome_bind.mp h
  rw [Run.handed_bind hcolumns, Run.handed_pure, List.append_nil]
  refine ⟨_, rfl, fun b hb => ?_, fun f hdeep => ?_⟩
  · obtain ⟨f, hf, hb⟩ := Run.mem_handed_each hb
    obtain ⟨column, hcolumn, within⟩ := Run.outcome_each hcolumns f hf
    obtain ⟨hnothing, -⟩ | ⟨child, rendered, hchild, -, reached, permits, hhanded⟩ :=
      renderColumn_eq_ok hscope hf hcolumn
    · rw [hnothing] at hb
      cases hb
    · rw [hhanded] at hb within
      exact ⟨child, ⟨⟨rendered, hchild⟩, reached, permits, within⟩, hb⟩
  · obtain ⟨column, hcolumn, within⟩ := Run.outcome_each hcolumns f hdeep.1
    obtain ⟨-, hplain⟩ | ⟨child, rendered, hchild, hvia, reached, permits, hhanded⟩ :=
      renderColumn_eq_ok hscope hdeep.1 hcolumn
    · exact absurd hdeep hplain
    · rw [hhanded] at within
      exact ⟨child, ⟨⟨rendered, hchild⟩, reached, permits, within⟩, hvia⟩

/-- A rendering that succeeds hands over its batch, and below it what relations lead to that are open
to the requester: a batch for every relation that is rendered deeply. -/
theorem render_eq_ok {fuel : Nat} {top : Batch} {rows : List Value}
    (h : (e.render ctx fuel top).outcome = .ok rows) :
    ∃ nested, (e.render ctx fuel top).handed = top :: nested ∧
      (∀ b ∈ nested, Relation.TransGen (Batch.Below e) top b ∧ e.Permits ctx b) ∧
      ∀ b ∈ top :: nested, ∀ f, b.Deep ctx f →
        ∃ child ∈ nested, child.via = some f ∧ b.Below e child := by
  induction fuel generalizing top rows with
  | zero => cases h
  | succ fuel ih =>
    obtain ⟨nested, hnested, opened, deep⟩ := render_step h
    refine ⟨nested, hnested, fun b hb => ?_, List.forall_mem_cons.mpr ⟨fun f hdeep => ?_, ?_⟩⟩
    · obtain ⟨child, opens, hb⟩ := opened b hb
      obtain ⟨rows, hrows⟩ := opens.renders
      obtain ⟨below, hbelow, hall, -⟩ := ih hrows
      rw [hbelow, List.mem_cons] at hb
      obtain rfl | hb := hb
      · exact ⟨.single opens.reached, opens.permits⟩
      · exact ⟨.head opens.reached (hall b hb).1, (hall b hb).2⟩
    · obtain ⟨child, opens, hvia⟩ := deep f hdeep
      obtain ⟨rows, hrows⟩ := opens.renders
      obtain ⟨below, hbelow, -⟩ := ih hrows
      exact ⟨child, opens.within child (by simp [hbelow]), hvia, opens.reached⟩
    · intro b hb f hdeep
      obtain ⟨child, opens, hb⟩ := opened b hb
      obtain ⟨rows, hrows⟩ := opens.renders
      obtain ⟨below, hbelow, -, hcovers⟩ := ih hrows
      rw [hbelow] at hb
      obtain ⟨grandchild, hmem, hvia, reached⟩ := hcovers b hb f hdeep
      exact ⟨grandchild, opens.within grandchild (by simp [hbelow, hmem]), hvia, reached⟩

end Engine
end RecordGraph
