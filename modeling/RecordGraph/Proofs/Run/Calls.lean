import Mathlib.Algebra.GroupWithZero.Nat
import RecordGraph.Proofs.Run.Children
import RecordGraph.Proofs.Run.Levels
import RecordGraph.Proofs.Run.Listing

/-!
How often the store is asked. Each relation that is followed costs one call for all records of its level,
so that a read makes no more calls than there are states nested in its query, and one for its root.
-/
namespace RecordGraph

/-! Nested states -/

mutual
/-- How many states are nested in a state, at any depth. -/
def nestedStates : Query → Nat
  | { take := some entries, .. } => nestedIn entries
  | _ => 0

def nestedIn : List (String × Take) → Nat
  | [] => 0
  | (_, entry) :: entries => nestedAt entry + nestedIn entries

def nestedAt : Take → Nat
  | .flag _ => 0
  | .nested state => nestedStates state + 1
end

/-- Somewhere in a state, a nested state stands under a name. -/
inductive Query.Nests : Query → String → Prop
  | here {q state : Query} {name : String} (entry : q.entry? name = some (.nested state)) : Nests q name
  | deeper {q state : Query} {key name : String} (entry : q.entry? key = some (.nested state))
    (h : Nests state name) : Nests q name

theorem nestedStates_eq (q : Query) : nestedStates q = nestedIn (q.take.getD []) := by
  obtain ⟨_, _, _, _, _, _, take, _, _, _, _⟩ := q
  cases take <;> rfl

/-- What names of different entries lead to is nested in these entries. -/
theorem sum_nestedAt_le (entries : List (String × Take)) {names : List String} (distinct : names.Nodup) :
    (names.map fun name => ((entries.lookup name).map nestedAt).getD 0).sum ≤ nestedIn entries := by
  induction entries generalizing names with
  | nil => simp [nestedIn]
  | cons entry entries ih =>
    obtain ⟨key, entry⟩ := entry
    have others {names : List String} (h : key ∉ names) :
        (names.map fun name => ((((key, entry) :: entries).lookup name).map nestedAt).getD 0) =
          names.map fun name => ((entries.lookup name).map nestedAt).getD 0 := by
      refine List.map_congr_left fun name hname => ?_
      have hne : (name == key) = false := by
        simpa using fun heq : name = key => h (heq ▸ hname)
      rw [List.lookup_cons, hne]
    rw [nestedIn]
    by_cases hkey : key ∈ names
    · have hperm := (List.perm_cons_erase hkey).map fun name =>
        ((((key, entry) :: entries).lookup name).map nestedAt).getD 0
      have hrest := ih (distinct.erase key)
      rw [hperm.sum_nat, List.map_cons, List.sum_cons, others distinct.not_mem_erase]
      simp only [List.lookup_cons, beq_self_eq_true, Option.map_some, Option.getD_some]
      omega
    · rw [others hkey]
      exact Nat.le_trans (ih distinct) (Nat.le_add_left ..)

namespace Query
variable {q state : Query} {name : String} {names : List String}

theorem nestedStates_lt (h : q.entry? name = some (.nested state)) :
    nestedStates state < nestedStates q := by
  have := sum_nestedAt_le (q.take.getD []) (List.nodup_singleton name)
  have hentry : (q.take.getD []).lookup name = some (.nested state) := h
  rw [← nestedStates_eq, List.map_singleton, List.sum_singleton, hentry] at this
  exact this

/-- A state that names lead to has no more nested states, nor other names for them. -/
theorem within_follow (h : q.follow names = some (.state state)) :
    nestedStates state ≤ nestedStates q ∧ ∀ name, state.Nests name → q.Nests name := by
  induction names generalizing q with
  | nil =>
    cases h
    exact ⟨Nat.le_refl _, fun _ => id⟩
  | cons name names ih =>
    rw [follow] at h
    split at h
    · cases h
    · rename_i inner hentry
      obtain ⟨hle, hnests⟩ := ih h
      exact ⟨Nat.le_trans hle (Nat.le_of_lt (nestedStates_lt hentry)),
        fun name hname => .deeper hentry (hnests name hname)⟩
    · split at h <;> cases h

theorem nestedStates_leveledFeatures (q : Query) : nestedStates q.leveledFeatures = nestedStates q := by
  rw [nestedStates_eq, nestedStates_eq]
  rfl

theorem nests_leveledFeatures : q.leveledFeatures.Nests name ↔ q.Nests name := by
  constructor
  · rintro (hentry | ⟨hentry, h⟩)
    · exact .here hentry
    · exact .deeper hentry h
  · rintro (hentry | ⟨hentry, h⟩)
    · exact .here hentry
    · exact .deeper hentry h

end Query

/-! Scopes -/

/-- How many states are nested in a scope. -/
def Scope.nestedStates (scope : Scope) : Nat := nestedIn (scope.take?.getD [])

theorem Scope.nestedStates_state (q : Query) :
    (Scope.state q).nestedStates = RecordGraph.nestedStates q := (nestedStates_eq q).symm

namespace Query
variable {q : Query} {level : Level} {scope : Scope}

/-- Below the root of a field, names of relations lead to what governs a level. -/
theorem exists_follow (below : (q.field.isSome && level.isEmpty) = false)
    (h : q.scope level = .ok scope) :
    ∃ names located, q.follow names = some located ∧ scope = q.governed located := by
  unfold Query.scope locate at? at h
  split at h
  · rename_i hfield
    cases hfollow : q.follow level.names with
    | none => simp [hfollow] at h
    | some located => exact ⟨_, located, hfollow, by cases located <;> simp_all [governed]⟩
  · rename_i hfield
    cases level with
    | nil => simp_all
    | cons root level =>
      cases hfollow : q.follow (Level.names level) with
      | none => simp [hfollow] at h
      | some located => exact ⟨_, located, hfollow, by cases located <;> simp_all [governed]⟩

theorem nestedStates_governed (q state : Query) :
    (q.governed (.state state)).nestedStates = nestedStates state := by
  rw [governed, Scope.nestedStates_state]
  split
  · rfl
  · exact nestedStates_leveledFeatures state

/-- There, a level has no more nested states than its query, nor other names for them. -/
theorem within_scope (below : (q.field.isSome && level.isEmpty) = false)
    (h : q.scope level = .ok scope) :
    scope.nestedStates ≤ nestedStates q ∧
      ∀ state, scope = .state state → ∀ name, state.Nests name → q.Nests name := by
  obtain ⟨names, located, hfollow, rfl⟩ := exists_follow below h
  cases located with
  | flag taken => exact ⟨Nat.zero_le _, by rintro _ ⟨⟩⟩
  | state state =>
    obtain ⟨hle, hnests⟩ := within_follow hfollow
    refine ⟨(nestedStates_governed q state).trans_le hle, ?_⟩
    rintro _ ⟨⟩ name hname
    refine hnests name ?_
    split at hname
    · exact hname
    · exact nests_leveledFeatures.mp hname

/-- Under a name that is one segment of a level, the scope is that of the state which stands there. -/
theorem scope_enter_nested {state nested : Query} {name : String} {entered : Scope}
    (below : (q.field.isSome && level.isEmpty) = false) (h : q.scope level = .ok (.state state))
    (entry : state.entry? name = some (.nested nested)) (plain : IsPlainName name)
    (hentered : q.scope (level.enter name) = .ok entered) : entered = q.governed (.state nested) := by
  have hfollow : state.follow (Level.ofText name).names = some (.state nested) := by
    rw [plain.names, follow, entry]
    rfl
  have hscope := scope_append below h (Level.ofText name)
  rw [hfollow, ← Level.enter, hentered] at hscope
  exact Option.some.inj hscope

end Query

/-! Calls of a run -/

namespace Run
variable {α β : Type}

/-- A run that calls the store at most so many times. -/
def CallsAtMost (n : Nat) (run : Run α) : Prop := run.calls.length ≤ n

namespace CallsAtMost

theorem ofExcept (x : Except QueryError α) (n : Nat) : CallsAtMost n (Run.ofExcept x) := Nat.zero_le n

theorem mono {n m : Nat} {run : Run α} (h : CallsAtMost n run) (hle : n ≤ m) : CallsAtMost m run :=
  Nat.le_trans h hle

theorem bind {n m : Nat} {run : Run α} {next : α → Run β} (h : CallsAtMost n run)
    (hnext : ∀ a, run.outcome = .ok a → CallsAtMost m (next a)) : CallsAtMost (n + m) (run >>= next) := by
  obtain ⟨calls, handed, outcome⟩ := run
  cases outcome with
  | error e => exact Nat.le_add_right_of_le h
  | ok a =>
    change (calls ++ (next a).calls).length ≤ n + m
    rw [List.length_append]
    exact Nat.add_le_add h (hnext a rfl)

/-- What runs before and makes no call does not count. -/
theorem after {n : Nat} {x : Except QueryError α} {next : α → Run β}
    (hnext : ∀ a, x = .ok a → CallsAtMost n (next a)) : CallsAtMost n (Run.ofExcept x >>= next) :=
  ((ofExcept x 0).bind hnext).mono (Nat.le_of_eq (Nat.zero_add n))

theorem each {f : α → Run β} {cost : α → Nat} {xs : List α} (h : ∀ x ∈ xs, CallsAtMost (cost x) (f x)) :
    CallsAtMost (xs.map cost).sum (Run.each f xs) := by
  induction xs with
  | nil => exact ofExcept _ _
  | cons x xs ih =>
    rw [List.forall_mem_cons] at h
    exact bind h.1 fun y _ => bind (ih h.2) fun ys _ => ofExcept _ 0

end CallsAtMost
end Run

namespace Engine
variable {e : Engine} {ctx : Context} {r : Resource} {f : Field} {t : Target}

/-! Rendering -/

/-- The targets of all records of a batch are loaded with one call. -/
theorem callsAtMost_loadTargets (records : List (Option Record)) (values : List Value) :
    (e.loadTargets r f t records values).CallsAtMost 1 := by
  have one {α β : Type} (call : Call) (outcome : Except QueryError α) (make : α → β) :
      Run.CallsAtMost 1 ((⟨[call], [], outcome⟩ : Run α) >>= fun a => pure (make a)) := by
    have called : Run.CallsAtMost 1 (⟨[call], [], outcome⟩ : Run α) := Nat.le_refl 1
    exact called.bind fun a _ => .ofExcept _ 0
  unfold loadTargets
  split
  · exact one _ _ _
  · unfold loadComputed
    dsimp only
    split
    · exact Nat.zero_le 1
    · exact one _ _ _

/-- What a followed relation costs: one call, and those for its targets. -/
theorem callsAtMost_renderRelated {render : Renderer} {link : String} {records : List (Option Record)}
    {values : List Value} {level : Level} {n : Nat}
    (h : ∀ t groups, e.target ctx r f link level = .ok t →
      (render (t.child f groups)).CallsAtMost n) :
    (e.renderRelated ctx render r f link records values level).CallsAtMost (1 + n) := by
  unfold renderRelated
  refine .after fun t ht => ?_
  refine (callsAtMost_loadTargets records values).bind fun groups _ => ?_
  exact Run.CallsAtMost.bind (h t groups ht) fun rendered _ => .ofExcept _ 0

theorem callsAtMost_renderColumn {render : Renderer} {scope : Scope} {b : Batch} {n : Nat}
    (h : isDeep ctx scope f b.level = true → ∀ link, f.link? = some link →
      ∀ t groups, e.target ctx b.resource f link b.level = .ok t →
        (render (t.child f groups)).CallsAtMost n) :
    (e.renderColumn ctx render scope b f).CallsAtMost
      (if isDeep ctx scope f b.level then 1 + n else 0) := by
  unfold renderColumn
  refine .after fun values _ => ?_
  cases hdeep : isDeep ctx scope f b.level with
  | false => exact Run.CallsAtMost.ofExcept _ 0
  | true =>
    simp only [Bool.not_true, Bool.false_eq_true, if_false, if_true]
    cases hlink : f.link? with
    | some link => exact callsAtMost_renderRelated (h hdeep link hlink)
    | none =>
      dsimp only
      split <;> exact Run.CallsAtMost.ofExcept _ _

/-- The names under which relations are followed are read as one segment of a level. -/
def FollowsPlainly (e : Engine) (q : Query) : Prop :=
  ∀ r ∈ e.resources, ∀ f ∈ r.fields, f.link?.isSome → q.Nests f.name → IsPlainName f.name

/-- Rendering a batch costs what its columns do. -/
theorem callsAtMost_render_succ {fuel : Nat} {b : Batch} {scope : Scope} {cost : Field → Nat}
    (hscope : ctx.query.scope b.level = .ok scope) (columns : ∀ f ∈ b.fields,
      (e.renderColumn ctx (e.render ctx fuel) scope b f).CallsAtMost (cost f)) :
    (e.render ctx (fuel + 1) b).CallsAtMost (b.fields.map cost).sum := by
  have handed : (Run.hand b).CallsAtMost 0 := Nat.zero_le _
  rw [render]
  refine (handed.bind (fun _ _ => .after fun scope' hscope' => ?_)).mono (Nat.le_of_eq (Nat.zero_add _))
  cases hscope.symm.trans hscope'
  exact (Run.CallsAtMost.each columns).bind fun _ _ => .ofExcept _ 0

section render
variable (plain : e.FollowsPlainly ctx.query) (built : e.server.Built)
include plain built

/-- Rendering a batch calls the store once for each state that is nested in its scope, at most. -/
theorem callsAtMost_render {fuel : Nat} {b : Batch} {scope : Scope}
    (below : (ctx.query.field.isSome && b.level.isEmpty) = false)
    (hscope : ctx.query.scope b.level = .ok scope) (known : b.resource ∈ e.resources)
    (fields : b.fields.Sublist b.resource.fields) :
    (e.render ctx fuel b).CallsAtMost scope.nestedStates := by
  induction fuel generalizing b scope with
  | zero => exact Run.CallsAtMost.ofExcept _ _
  | succ fuel ih =>
    let cost (name : String) : Nat := (((scope.take?.getD []).lookup name).map nestedAt).getD 0
    have columns : ∀ f ∈ b.fields,
        (e.renderColumn ctx (e.render ctx fuel) scope b f).CallsAtMost (cost f.name) := by
      intro f hf
      have column {n : Nat} := @callsAtMost_renderColumn e ctx f (e.render ctx fuel) scope b n
      cases hdeep : isDeep ctx scope f b.level with
      | false => exact (@column 0 (by simp [hdeep])).mono (by simp [hdeep])
      | true =>
        obtain ⟨state, nested, rfl, entry⟩ := (isDeep_iff below).mp hdeep
        have hcost : cost f.name = 1 + nestedStates nested := by
          have hentry : (Option.getD (Scope.take? (.state state)) []).lookup f.name =
            some (.nested nested) := entry
          rw [Nat.add_comm]
          simp [cost, hentry, nestedAt]
        refine (column fun _ link hlink t groups ht => ?_).mono (by rw [if_pos hdeep, hcost])
        obtain ⟨access, entered, settled⟩ := target_eq_ok.mp ht
        have hplain : IsPlainName f.name := plain b.resource known f (fields.subset hf)
          (by simp [hlink]) ((Query.within_scope below hscope).2 state rfl _ (.here entry))
        have hentered := Query.scope_enter_nested below hscope entry hplain
          (settled.entered ▸ settled.governed)
        have hbelow : (ctx.query.field.isSome && t.level.isEmpty) = false :=
          settled.entered ▸ Query.below_enter below f.name
        have taken := settled.taken
        rw [takeFields_scope hbelow settled.governed] at taken
        have child := @ih (t.child f groups) _ hbelow settled.governed
          (mem_resources_of_resolveLink settled.resolved) (permitted_sublist taken)
        rwa [hentered, Query.nestedStates_governed] at child
    have total : (b.fields.map fun f => cost f.name).sum ≤ scope.nestedStates := by
      have names : (b.fields.map Field.name).Nodup :=
        (nodup_fields built known).sublist (fields.map Field.name)
      have := sum_nestedAt_le (scope.take?.getD []) names
      rwa [List.map_map] at this
    exact (callsAtMost_render_succ hscope columns).mono total

/-! Reading -/

/-- Below a field that is rendered deeply, one more call leads to what its query nests. -/
theorem callsAtMost_targetColumn {fuel : Nat} {b : Batch} {scope : Scope} (root : b.level = Level.root)
    (targeted : ctx.query.field.isSome) :
    (e.renderColumn ctx (e.render ctx fuel) scope b f).CallsAtMost
      (if ctx.query.take.isSome then 1 + nestedStates ctx.query else 0) := by
  have hdeep : isDeep ctx scope f b.level = ctx.query.take.isSome := by
    rw [isDeep, root, if_pos (by simp [targeted, Level.root])]
  refine hdeep ▸ callsAtMost_renderColumn fun _ link _ t groups ht => ?_
  obtain ⟨access, entered, settled⟩ := target_eq_ok.mp ht
  have below : (ctx.query.field.isSome && t.level.isEmpty) = false := by
    rw [settled.entered, root, Level.root, Level.enter, List.nil_append, Level.ofText]
    simp [Text.pieces_ne_nil]
  have taken := settled.taken
  rw [takeFields_scope below settled.governed] at taken
  exact (@callsAtMost_render e ctx plain built fuel (t.child f groups) _ below settled.governed
    (mem_resources_of_resolveLink settled.resolved) (permitted_sublist taken)).mono
    (Query.within_scope below settled.governed).1

/-- The calls of rendering at the root: a query for a field makes them where it takes more of it. -/
def rootCalls (q : Query) : Nat :=
  if q.field.isSome then (if q.take.isSome then 1 + nestedStates q else 0) else nestedStates q

theorem callsAtMost_renderRoot {fields selected : List Field} {records : List (Option Record)}
    (known : r ∈ e.resources) (taken : takeFields r "get" Level.root ctx e.settings = .ok selected)
    (among : fields.Sublist selected) :
    (e.renderRoot ctx r fields records).CallsAtMost (rootCalls ctx.query) := by
  obtain ⟨scope, hscope⟩ := ctx.query.scope_root
  unfold renderRoot
  cases hfield : ctx.query.field with
  | none =>
    have below : (ctx.query.field.isSome && Level.root.isEmpty) = false := by simp [hfield]
    rw [takeFields_scope below hscope] at taken
    have rendered := @callsAtMost_render e ctx plain built (e.levelBound ctx.query)
      ⟨none, r, fields, records, Level.root⟩ scope below hscope known
      (among.trans (permitted_sublist taken))
    refine rendered.mono ((Query.within_scope below hscope).1.trans ?_)
    simp [rootCalls, hfield]
  | some name =>
    obtain ⟨f, hf⟩ : ∃ f, selected = [f] := by
      have targeted : takeFields r "get" Level.root ctx e.settings =
          (targetField r name "get" ctx e.settings).map ([·]) := by
        simp [takeFields, hfield, Level.root]
      obtain ⟨f, -, rfl⟩ := Except.map_eq_ok.mp (targeted ▸ taken)
      exact ⟨f, rfl⟩
    have short : fields.length ≤ 1 := by simpa [hf] using among.length_le
    cases e.levelBound ctx.query with
    | zero => exact Run.CallsAtMost.ofExcept _ _
    | succ fuel =>
      refine (callsAtMost_render_succ (b := ⟨none, r, fields, records, Level.root⟩) hscope fun g _ =>
        callsAtMost_targetColumn plain built rfl (by simp [hfield])).mono ?_
      have once (n : Nat) : (fields.map fun _ => n).sum ≤ n := by
        rw [List.map_const', List.sum_replicate_nat]
        exact (Nat.mul_le_mul_right n short).trans_eq (Nat.one_mul n)
      simpa [rootCalls, hfield] using once (if ctx.query.take.isSome then 1 + nestedStates ctx.query else 0)

end render

theorem callsAtMost_load {endpoint : Endpoint} {path : Option String} {o : Opening} :
    (e.load ctx endpoint path o).CallsAtMost 1 := by
  unfold load
  split
  · refine .after fun p _ => ?_
    have fetched : (e.store.runFetch p.fetch).CallsAtMost 1 := Nat.le_refl 1
    exact fetched.bind fun _ _ => .ofExcept _ 0
  · split <;> exact .ofExcept _ 1

/-- A read calls the store once for its root, and then for what it renders. -/
theorem callsAtMost_getResource (built : e.server.Built) (plain : e.FollowsPlainly ctx.query)
    (endpoint : Endpoint) (path : Option String) :
    (e.getResource ctx endpoint path).CallsAtMost (1 + rootCalls ctx.query) := by
  rw [getResource_eq]
  refine .after fun o opened => callsAtMost_load.bind fun l loads => ?_
  obtain ⟨found, -, -, taken⟩ := opening_eq_ok.mp opened
  have rendered : (e.renderRoot ctx o.resource l.fields l.records).CallsAtMost (rootCalls ctx.query) :=
    callsAtMost_renderRoot plain built (mem_resources_of_findResource found) taken
      (load_eq_ok.mp loads).sublist
  exact rendered.bind fun _ _ => .ofExcept _ 0

/-- A read of a resource, a record or a field calls the store once for its root and once for each state
that is nested in its query, at most, and once more for a field of which it takes more. This bounds the
calls whatever the store holds. -/
theorem execute_calls_le (e : Engine) (built : e.server.Built) (q : Query) (request : Value)
    (reads : q.action.getD .get = .get)
    (targets : q.endpoint = .resource ∨ q.endpoint = .record ∨ q.endpoint = .field)
    (plain : e.FollowsPlainly q) :
    (e.execute q request).calls.length ≤
      1 + nestedStates q + if q.endpoint = .field ∧ q.take.isSome then 1 else 0 := by
  rw [execute_reads request reads targets]
  have bounded : (e.getResource ⟨q, request⟩ q.endpoint none).CallsAtMost _ :=
    callsAtMost_getResource built plain q.endpoint none
  refine Nat.le_trans bounded ?_
  cases hfield : q.field with
  | some name =>
    have targeted : q.endpoint = .field := by simp [Query.endpoint, hfield]
    cases htake : q.take.isSome <;> simp [rootCalls, hfield, targeted, htake]
    omega
  | none => simp [rootCalls, hfield]

end Engine

/-! Books with their authors, and the agents of both -/

namespace Agency

def config : ServerConfig where
  spaces := [("library", { resources := [
    ("agent", { source := some "agents", fields := [("mentor", { type := some (.str "@agent") })] }),
    ("author", { source := some "authors", fields := [("agent", { type := some (.str "@agent") })] }),
    ("book", {
      source := some "books"
      fields := [
        ("author", { type := some (.str "@author") }),
        ("author.agent", { type := some (.str "@agent"), source := some (.str "seller") })] })] })]

def agency : Engine where
  server := .declared config
  store := [
    ("agents", [[("id", .str "s1"), ("mentor", .str "s2")], [("id", .str "s2")]]),
    ("authors", [[("agent", .str "s1"), ("id", .str "a1")]]),
    ("books", [[("author", .str "a1"), ("id", .str "b1"), ("seller", .str "s1")]])]
  settings := {}

theorem built : agency.server.Built := by
  have distinct : config.Distinct := by
    simp only [ServerConfig.Distinct, config, List.forall_mem_cons]
    decide
  exact Server.built_declared distinct (by decide +kernel)

/-- The books, with something taken of their authors. -/
def booksWith (entries : List (String × Take)) : Query where
  space := some "library"
  resource := some "book"
  take := some entries

/-- An author with the agent who works for them. -/
def represented : Take := .nested { take := some [("agent", .nested {})] }

/-- With one entry, nothing else is nested. -/
theorem nests_single {q state : Query} {key name : String} (only : q.take = some [(key, .nested state)])
    (h : q.Nests name) : name = key ∨ state.Nests name := by
  have entries {key' : String} {state' : Query} (entry : q.entry? key' = some (.nested state')) :
      key' = key ∧ state' = state := by
    rw [Query.entry?, only] at entry
    simpa using Entries.mem_of_get? entry
  rcases h with entry | ⟨entry, h⟩
  · exact .inl (entries entry).1
  · exact .inr ((entries entry).2 ▸ h)

theorem followsPlainly_represented :
    agency.FollowsPlainly (booksWith [("author", represented)]) := by
  intro r _ f _ _ nests
  have names : f.name = "author" ∨ f.name = "agent" := by
    refine (nests_single rfl nests).imp_right fun nests => ?_
    refine (nests_single rfl nests).resolve_right fun nests => ?_
    obtain entry | ⟨entry, -⟩ := nests <;> cases entry
  rcases names with name | name <;> rw [name] <;> exact ⟨by decide, by decide⟩

end Agency

/-- Books with their authors and the agents of these take three calls. -/
theorem Engine.execute_calls_le_represented :
    (Agency.agency.execute (Agency.booksWith [("author", Agency.represented)]) .null).calls.length ≤ 3 :=
  Engine.execute_calls_le Agency.agency Agency.built _ .null rfl (.inl rfl)
    Agency.followsPlainly_represented

/-- The relation `author.agent` of a book is read as that of its author, so that it is rendered with the
mentors which are taken there only: four states are nested, but the store is called six times. -/
theorem Engine.execute_calls_dotted :
    let mentored : Take := .nested { take := some [("mentor", .nested {})] }
    let q := Agency.booksWith [
      ("author", .nested { take := some [("agent", mentored)] }), ("author.agent", .nested {})]
    Agency.agency.server.Built ∧ q.action.getD .get = .get ∧ q.endpoint = .resource ∧
      (Agency.agency.execute q .null).outcome.toOption.isSome ∧ nestedStates q = 4 ∧
      (Agency.agency.execute q .null).calls.length = 6 :=
  ⟨Agency.built, rfl, rfl, by decide +kernel, by decide +kernel, by decide +kernel⟩

end RecordGraph
