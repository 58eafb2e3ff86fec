import Mathlib.Data.List.Perm.Subperm
import Mathlib.Data.List.ProdSigma
import Mathlib.Logic.Relation
import RecordGraph.Proofs.Graph.Build
import RecordGraph.Proofs.Query.Local
import RecordGraph.Proofs.Run.Render
import RecordGraph.Proofs.Run.Rows

/-!
How deeply a query is rendered. Relations lead from a resource and the state that governs it to others;
if they come to an end at all, they do so before a resource is met twice under states of one depth.
-/
namespace RecordGraph

/-- The scope that something located stands for. -/
def Scope.ofLocated : Located → Scope
  | .flag _ => .ids
  | .state q => .state q

/-- How deeply states are nested in a scope. -/
def Scope.depth : Scope → Nat
  | .ids => 0
  | .state q => Engine.takeDepth q

/-- What a scope takes of a resource with the given id field. -/
def Scope.taken (idName : String) : Scope → Option (Entries Take)
  | .ids => some [(idName, .flag true)]
  | .state q => q.take

/-! Nested states -/

theorem Query.entryDepth_le {q : Query} {name : String} {entry : Take}
    (h : q.entry? name = some entry) : Engine.entryDepth entry ≤ Engine.takeDepth q := by
  obtain ⟨space, resource, record, field, action, inspect, take, filter, sort, page, group⟩ := q
  cases take with
  | none => cases h
  | some ts =>
    have run : ∀ ts : List (String × Take), ts.lookup name = some entry →
        Engine.entryDepth entry ≤ Engine.takesDepth ts := by
      intro ts
      induction ts with
      | nil => intro h; cases h
      | cons t ts ih =>
        intro h
        rw [List.lookup_cons] at h
        rw [Engine.takesDepth]
        split at h
        · cases h
          exact Nat.le_max_left ..
        · exact Nat.le_trans (ih h) (Nat.le_max_right ..)
    rw [Engine.takeDepth]
    exact run ts h

theorem Query.takeDepth_lt {q state : Query} {name : String}
    (h : q.entry? name = some (.nested state)) : Engine.takeDepth state < Engine.takeDepth q :=
  Query.entryDepth_le h

theorem Query.depth_follow_le {q : Query} {names : List String} {located : Located}
    (h : q.follow names = some located) : (Scope.ofLocated located).depth ≤ Engine.takeDepth q := by
  induction names generalizing q with
  | nil =>
    cases h
    exact Nat.le_refl _
  | cons name names ih =>
    rw [Query.follow] at h
    split at h
    · cases h
    · rename_i state hentry
      exact Nat.le_trans (ih h) (Nat.le_of_lt (takeDepth_lt hentry))
    · split at h
      · cases h
        exact Nat.zero_le _
      · cases h

/-- What is reached by relation names is nested less deeply. -/
theorem Query.depth_follow_lt {q : Query} {name : String} {names : List String} {located : Located}
    (nested : 0 < Engine.takeDepth q) (h : q.follow (name :: names) = some located) :
    (Scope.ofLocated located).depth < Engine.takeDepth q := by
  rw [Query.follow] at h
  split at h
  · cases h
  · rename_i state hentry
    exact Nat.lt_of_le_of_lt (depth_follow_le h) (takeDepth_lt hentry)
  · split at h
    · cases h
      exact nested
    · cases h

/-! Levels -/

section levels
variable {q : Query} (field : q.field = none) {level : Level} {scope : Scope}
include field

/-- The scope of a level is what its names lead to. -/
theorem Query.scope_eq_ok : q.scope level = .ok scope ↔
    ∃ located, q.follow level.names = some located ∧ scope = Scope.ofLocated located := by
  unfold Query.scope Query.locate Query.at?
  rw [field]
  cases hfollow : q.follow level.names with
  | none => simp
  | some located => cases located <;> simp [Scope.ofLocated, eq_comm]

/-- One level below a state, the scope is what the state has for the name. -/
theorem Query.scope_enter {state : Query} (h : q.scope level = .ok (.state state)) {name : String} :
    q.scope (level.enter name) = .ok scope ↔
      ∃ located, state.follow (Level.ofText name).names = some located ∧
        scope = Scope.ofLocated located := by
  obtain ⟨located, hfollow, hlocated⟩ := (Query.scope_eq_ok field).mp h
  obtain rfl : located = .state state := by cases located <;> cases hlocated; rfl
  have hnames : (level.enter name).names = level.names ++ (Level.ofText name).names :=
    List.filter_append ..
  rw [Query.scope_eq_ok field, hnames, Query.follow_append _ hfollow]

end levels

/-! Resources under states -/

/-- A relation that a state takes with a nested state leads to another resource under what the state has
for its name. -/
inductive Engine.Enters (e : Engine) (ctx : Context) : Resource × Scope → Resource × Scope → Prop
  | mk {r related : Resource} {state nested : Query} {fields : List Field} {f : Field} {link : String}
      {located : Located}
      (taken : permitted state.take r.idName "get" ctx e.settings r.fields = .ok fields)
      (mem : f ∈ fields) (entry : state.entry? f.name = some (.nested nested))
      (hlink : f.link? = some link) (resolved : e.server.resolveLink r.space link = some related)
      (reached : state.follow (Level.ofText f.name).names = some located) :
      Enters e ctx (r, .state state) (related, Scope.ofLocated located)

namespace Engine
variable {e : Engine} {ctx : Context} {x y : Resource × Scope}

/-- What is entered is nested less deeply, or under the same state. -/
theorem Enters.depth (h : e.Enters ctx x y) : y.2.depth < x.2.depth ∨ y.2 = x.2 := by
  obtain ⟨taken, mem, entry, hlink, resolved, reached⟩ := h
  rename_i state _ _ f _ located
  cases hnames : (Level.ofText f.name).names with
  | nil =>
    rw [hnames] at reached
    cases reached
    exact .inr rfl
  | cons name names =>
    rw [hnames] at reached
    exact .inl (Query.depth_follow_lt (Nat.zero_lt_of_lt (Query.takeDepth_lt entry)) reached)

theorem Enters.transGen_depth (h : Relation.TransGen (e.Enters ctx) x y) :
    y.2.depth < x.2.depth ∨ y.2 = x.2 := by
  induction h with
  | single h => exact h.depth
  | tail _ h ih =>
    rcases h.depth with hlt | heq
    · refine .inl (Nat.lt_of_lt_of_le hlt ?_)
      exact ih.elim Nat.le_of_lt fun heq => Nat.le_of_eq (congrArg Scope.depth heq)
    · rwa [heq]

/-- The resources of all spaces. -/
def resources (e : Engine) : List Resource :=
  e.server.spaces.flatMap fun (_, s) => s.resources.map Prod.snd

theorem mem_resources {space name : String} {found : Space} {r : Resource}
    (hspace : e.server.space? space = some found) (hresource : found.resource? name = some r) :
    r ∈ e.resources :=
  List.mem_flatMap.mpr ⟨_, Entries.mem_of_get? hspace,
    List.mem_map.mpr ⟨_, Entries.mem_of_get? hresource, rfl⟩⟩

theorem mem_resources_of_resolveLink {space link : String} {r : Resource}
    (h : e.server.resolveLink space link = some r) : r ∈ e.resources := by
  unfold Server.resolveLink at h
  split at h <;>
    · obtain ⟨found, hspace, hresource⟩ := Option.bind_eq_some_iff.mp h
      exact mem_resources hspace hresource

theorem mem_resources_of_target? {r t : Resource} {f : Field} (h : e.server.target? r f = some t) :
    t ∈ e.resources := by
  obtain ⟨link, -, resolved⟩ := Option.bind_eq_some_iff.mp h
  exact mem_resources_of_resolveLink resolved

theorem mem_resources_of_findResource {q : Query} {r : Resource} (h : e.findResource q = .ok r) :
    r ∈ e.resources := by
  unfold findResource findSpace at h
  split at h
  · cases h
  · cases h
  · obtain ⟨space, hspace, h⟩ := Except.bind_eq_ok.mp h
    split at hspace
    · rename_i found
      cases hspace
      split at h
      · cases h
        exact mem_resources found ‹_›
      · cases h
    · cases hspace

theorem nodup_fields (built : e.server.Built) {r : Resource} (known : r ∈ e.resources) :
    (r.fields.map Field.name).Nodup := by
  obtain ⟨space, hspace, hr⟩ := List.mem_flatMap.mp known
  obtain ⟨resource, hresource, rfl⟩ := List.mem_map.mp hr
  exact built.nodup hspace hresource

theorem Enters.mem_resources (h : Relation.TransGen (e.Enters ctx) x y) : y.1 ∈ e.resources := by
  cases h with
  | single h | tail _ h =>
    obtain ⟨taken, mem, entry, hlink, resolved, reached⟩ := h
    exact mem_resources_of_resolveLink resolved

/-- All relations below come to an end within a number of levels. -/
def Settles (e : Engine) (ctx : Context) : Nat → Resource × Scope → Prop
  | 0, _ => False
  | n + 1, x => ∀ y, e.Enters ctx x y → Settles e ctx n y

theorem Settles.mono {n m : Nat} (h : e.Settles ctx n x) (hle : n ≤ m) : e.Settles ctx m x := by
  induction n generalizing m x with
  | zero => exact h.elim
  | succ n ih =>
    cases m with
    | zero => exact absurd hle (Nat.not_succ_le_zero n)
    | succ m => exact fun y hy => ih (h y hy) (Nat.le_of_succ_le_succ hle)

theorem Settles.transGen {n : Nat} (h : e.Settles ctx n x)
    (reached : Relation.TransGen (e.Enters ctx) x y) : ∃ m < n, e.Settles ctx m y := by
  induction reached with
  | single hy =>
    cases n with
    | zero => exact h.elim
    | succ n => exact ⟨n, Nat.lt_succ_self n, h _ hy⟩
  | tail _ hz ih =>
    obtain ⟨m, hm, hsettles⟩ := ih
    cases m with
    | zero => exact hsettles.elim
    | succ m => exact ⟨m, Nat.lt_of_succ_lt hm, hsettles _ hz⟩

/-- Relations that come to an end never lead back. -/
theorem Settles.not_transGen {n : Nat} (h : e.Settles ctx n x) :
    ¬Relation.TransGen (e.Enters ctx) x x := by
  intro circle
  induction n using Nat.strongRecOn with
  | ind n ih =>
    obtain ⟨m, hm, hsettles⟩ := h.transGen circle
    exact ih m hm hsettles

/-- Relations that do not come to an end within a number of levels go on for as many. -/
theorem exists_trail {n : Nat} (h : ¬e.Settles ctx n x) :
    ∃ trail : List (Resource × Scope), trail.length = n ∧
      (∀ y ∈ trail, Relation.TransGen (e.Enters ctx) x y) ∧
      trail.Pairwise (Relation.TransGen (e.Enters ctx)) := by
  induction n generalizing x with
  | zero => exact ⟨[], rfl, by simp, .nil⟩
  | succ n ih =>
    simp only [Settles, not_forall] at h
    obtain ⟨y, hy, h⟩ := h
    obtain ⟨trail, hlength, reached, ordered⟩ := ih h
    refine ⟨y :: trail, by rw [List.length_cons, hlength], ?_, List.pairwise_cons.mpr ⟨reached, ordered⟩⟩
    exact List.forall_mem_cons.mpr ⟨.single hy, fun z hz => .head hy (reached z hz)⟩

/-- A level is as deep as its state is nested, and at each depth reaches a resource once. -/
theorem Settles.bounded {n : Nat} (h : e.Settles ctx n x) :
    e.Settles ctx (e.resources.length * (x.2.depth + 1) + 1) x := by
  by_contra hnot
  obtain ⟨trail, hlength, reached, ordered⟩ := exists_trail hnot
  have distinct : (trail.map fun y => (y.1, y.2.depth)).Nodup := by
    rw [List.Nodup, List.pairwise_map]
    refine ordered.imp_of_mem fun {a b} ha _ hab heq => ?_
    obtain ⟨hresource, hdepth⟩ := Prod.mk.inj heq
    rcases Enters.transGen_depth hab with hlt | hscope
    · exact absurd hdepth (Nat.ne_of_gt hlt)
    · obtain rfl : a = b := Prod.ext hresource hscope.symm
      obtain ⟨m, -, hsettles⟩ := h.transGen (reached a ha)
      exact hsettles.not_transGen hab
  have within : (trail.map fun y => (y.1, y.2.depth)) ⊆
      e.resources ×ˢ List.range (x.2.depth + 1) := by
    intro key hkey
    obtain ⟨y, hy, rfl⟩ := List.mem_map.mp hkey
    have hdepth : y.2.depth ≤ x.2.depth := (Enters.transGen_depth (reached y hy)).elim Nat.le_of_lt
      fun heq => Nat.le_of_eq (congrArg Scope.depth heq)
    exact List.mem_product.mpr ⟨Enters.mem_resources (reached y hy),
      List.mem_range.mpr (Nat.lt_succ_of_le hdepth)⟩
  have hle := (List.subperm_of_subset distinct within).length_le
  rw [List.length_map, hlength, List.length_product, List.length_range] at hle
  exact absurd hle (Nat.not_succ_le_self _)

/-! Rendering -/

section rendering
variable {level : Level} {scope : Scope}

/-- Below the root of a field, what is rendered deeply has a nested state. -/
theorem isDeep_iff {f : Field} (below : (ctx.query.field.isSome && level.isEmpty) = false) :
    isDeep ctx scope f level = true ↔
      ∃ state nested, scope = .state state ∧ state.entry? f.name = some (.nested nested) := by
  unfold isDeep
  rw [if_neg (by simp [below])]
  cases scope with
  | ids => simp [Scope.take?, Scope.state?]
  | state s =>
    have hentry : ((Scope.take? (.state s)).getD []).lookup f.name = s.entry? f.name := rfl
    rw [hentry]
    rcases hs : s.entry? f.name with _ | (_ | nested) <;> simp [hs]

theorem takeFields_scope {r : Resource} (below : (ctx.query.field.isSome && level.isEmpty) = false)
    (hscope : ctx.query.scope level = .ok scope) (action : String) (settings : Settings) :
    takeFields r action level ctx settings =
      permitted (scope.taken r.idName) r.idName action ctx settings r.fields := by
  unfold takeFields
  split
  · rename_i name field
    rw [field] at below
    cases below
  · rw [hscope]
    cases scope <;> rfl

/-- What is rendered deeply leads from the resource of its batch to that of its targets. -/
theorem enters_of_settled {b : Batch} {f : Field} {link : String} {t : Target} {access : Access}
    {below : Scope} (field : ctx.query.field = none) (hscope : ctx.query.scope b.level = .ok scope)
    (taken : takeFields b.resource "get" b.level ctx e.settings = .ok b.fields) (mem : f ∈ b.fields)
    (deep : isDeep ctx scope f b.level = true) (hlink : f.link? = some link)
    (settled : e.Settled ctx b.resource f link b.level t access below) :
    e.Enters ctx (b.resource, scope) (t.resource, below) := by
  obtain ⟨state, nested, rfl, entry⟩ := (isDeep_iff (by simp [field])).mp deep
  rw [takeFields_scope (by simp [field]) hscope] at taken
  obtain ⟨located, reached, rfl⟩ := (Query.scope_enter field hscope).mp
    (settled.entered ▸ settled.governed)
  exact .mk taken mem entry hlink settled.resolved reached

/-- Whatever is rendered comes to an end. -/
theorem settles_of_render {fuel : Nat} {b : Batch} {rows : List Value}
    (field : ctx.query.field = none) (hscope : ctx.query.scope b.level = .ok scope)
    (taken : takeFields b.resource "get" b.level ctx e.settings = .ok b.fields)
    (h : (e.render ctx fuel b).outcome = .ok rows) : e.Settles ctx fuel (b.resource, scope) := by
  induction fuel generalizing b rows scope with
  | zero => cases h
  | succ fuel ih =>
    intro y hy
    obtain ⟨scope', columns, hscope', hcolumns, -⟩ := outcome_render.mp h
    cases hscope.symm.trans hscope'
    cases hy with
    | @mk _ related state nested fields f link located hfields mem entry hlink resolved reached =>
      rw [takeFields_scope (by simp [field]) hscope, Scope.taken, hfields] at taken
      rw [Except.ok.inj taken] at mem
      obtain ⟨column, -, hcolumn⟩ := hcolumns.flip.exists_left mem
      have deep : isDeep ctx (.state state) f b.level = true :=
        (isDeep_iff (by simp [field])).mpr ⟨state, nested, rfl, entry⟩
      obtain ⟨values, -, hcolumn⟩ := (outcome_renderColumn_deep deep hlink).mp hcolumn
      obtain ⟨t, groups, rendered, ht, -, hrendered, -⟩ := outcome_renderRelated.mp hcolumn
      obtain ⟨access, below, settled⟩ := target_eq_ok.mp ht
      obtain ⟨located', reached', rfl⟩ := (Query.scope_enter field hscope).mp
        (settled.entered ▸ settled.governed)
      cases reached.symm.trans reached'
      cases resolved.symm.trans settled.resolved
      exact ih settled.governed settled.taken hrendered

end rendering

end Engine
end RecordGraph
