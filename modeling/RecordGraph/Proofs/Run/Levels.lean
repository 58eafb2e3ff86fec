import RecordGraph.Proofs.Run.Depth

/-!
Levels with the same scopes. Where two levels of a query have the same scope, and so have the levels
below them, the same records are rendered alike at both.
-/
namespace RecordGraph

namespace Query
variable {q n : Query} {level other : Level}

/-- The scope that something located is for a query: with a field as target, without root features. -/
def governed (q : Query) : Located → Scope
  | .flag _ => .ids
  | .state state => .state (if q.field.isNone then state else state.leveledFeatures)

/-- Root features do not change where relation names lead. -/
theorem follow_leveledFeatures (field : q.field.isNone = false) (state : Query) (names : List String) :
    (state.leveledFeatures.follow names).map q.governed = (state.follow names).map q.governed := by
  cases names with
  | nil => simp [follow, governed, field, leveledFeatures]
  | cons name names => rfl

/-- Below the root, the scopes of the levels below one are what its state has for them. -/
theorem scope_append (rooted : (q.field.isSome && level.isEmpty) = false)
    (h : q.scope level = .ok (.state n)) (below : Level) :
    (q.scope (level ++ below)).toOption = (n.follow below.names).map q.governed := by
  have names_append (level : Level) : (level ++ below).names = level.names ++ below.names :=
    List.filter_append ..
  cases hfield : q.field with
  | none =>
    obtain ⟨located, hfollow, hlocated⟩ := (scope_eq_ok hfield).mp h
    obtain rfl : located = .state n := by cases located <;> cases hlocated; rfl
    unfold scope locate at?
    rw [hfield, names_append, follow_append _ hfollow]
    cases n.follow below.names with
    | none => rfl
    | some located => cases located <;> simp [governed, hfield, Except.toOption]
  | some name =>
    have field : q.field.isNone = false := by simp [hfield]
    cases level with
    | nil => simp [hfield] at rooted
    | cons root level =>
      unfold scope locate at? at h ⊢
      rw [field] at h ⊢
      simp only [Bool.false_eq_true, if_false, List.cons_append] at h ⊢
      cases hfollow : q.follow (Level.names level) with
      | none => simp [hfollow] at h
      | some located =>
        obtain ⟨state, rfl, rfl⟩ : ∃ state, located = .state state ∧ state.leveledFeatures = n := by
          rw [hfollow] at h
          cases located with
          | flag taken => cases h
          | state state => exact ⟨state, rfl, by simpa using h⟩
        rw [names_append, follow_append _ hfollow, follow_leveledFeatures field]
        cases state.follow below.names with
        | none => rfl
        | some located => cases located <;> simp [governed, field, Except.toOption]

theorem below_enter (below : (q.field.isSome && level.isEmpty) = false) (name : String) :
    (q.field.isSome && (level.enter name).isEmpty) = false := by
  cases level with
  | nil => rw [Bool.and_eq_false_iff.mp below |>.resolve_right (by simp), Bool.false_and]
  | cons segment level => exact Bool.and_false _

/-- Two levels below the root that have the same scope, as have the levels below them. -/
structure Alike (q : Query) (level other : Level) : Prop where
  below : (q.field.isSome && level.isEmpty) = false
  below' : (q.field.isSome && other.isEmpty) = false
  scopes : ∀ more : Level, (q.scope (level ++ more)).toOption = (q.scope (other ++ more)).toOption

/-- Levels with the same state are alike. -/
theorem alike_of_scope (below : (q.field.isSome && level.isEmpty) = false)
    (below' : (q.field.isSome && other.isEmpty) = false) (h : q.scope level = .ok (.state n))
    (h' : q.scope other = .ok (.state n)) : q.Alike level other :=
  ⟨below, below', fun more => by rw [scope_append below h, scope_append below' h']⟩

namespace Alike

theorem symm (h : q.Alike level other) : q.Alike other level :=
  ⟨h.below', h.below, fun more => (h.scopes more).symm⟩

theorem enter (h : q.Alike level other) (name : String) :
    q.Alike (level.enter name) (other.enter name) where
  below := below_enter h.below name
  below' := below_enter h.below' name
  scopes more := by simpa [Level.enter] using h.scopes (Level.ofText name ++ more)

theorem scope (h : q.Alike level other) {scope : Scope} (hscope : q.scope level = .ok scope) :
    q.scope other = .ok scope := by
  have same := h.scopes []
  rw [List.append_nil, List.append_nil, hscope] at same
  exact Except.toOption_eq_some.mp same.symm

end Alike
end Query

namespace Engine
variable {e : Engine} {ctx : Context} {r : Resource} {f g : Field} {link : String} {t : Target}
  {level other : Level}

/-- A target with another level. -/
def Target.at (t : Target) (level : Level) : Target := { t with level := level }

theorem can_congr (h : g.can = f.can) (r : Resource) (action : String) (ctx : Context) :
    can r action ctx (some g) = can r action ctx (some f) := by
  unfold can prefetchGranted
  rw [Option.bind_some, Option.bind_some, h]

/-- Two relations with the same permissions have the same target, up to where it is. -/
theorem target_alike (hcan : g.can = f.can)
    (alike : ctx.query.Alike (level.enter f.name) (other.enter g.name))
    (h : e.target ctx r f link level = .ok t) :
    e.target ctx r g link other = .ok (t.at (other.enter g.name)) := by
  obtain ⟨access, scope, settled⟩ := target_eq_ok.mp h
  have hentered := settled.entered
  have governed : ctx.query.scope (level.enter f.name) = .ok scope := hentered ▸ settled.governed
  have taken := settled.taken
  rw [hentered, takeFields_scope alike.below governed] at taken
  exact target_eq_ok.mpr ⟨access, scope, {
    resolved := settled.resolved
    entered := rfl
    granted := (can_congr hcan ..).trans settled.granted
    allowed := settled.allowed
    taken := (takeFields_scope alike.below' (alike.scope governed) ..).trans taken
    governed := alike.scope governed
    size := settled.size
    prepared := settled.prepared
    sorted := settled.sorted
    stored := settled.stored }⟩

/-- A renderer that gives the same for records at one level and at another. -/
def Renders (render : Renderer) (level other : Level) : Prop :=
  ∀ b : Batch, b.level = level → ∀ via rows, (render b).outcome = .ok rows →
    (render { b with via := via, level := other }).outcome = .ok rows

/-- Two relations become the same if the same targets are loaded and rendered for both. -/
theorem renderRelated_alike {render : Renderer} {records : List (Option Record)}
    {values values' column : List Value} (hcan : g.can = f.can) (list : g.isList = f.isList)
    (alike : ctx.query.Alike (level.enter f.name) (other.enter g.name))
    (load : ∀ t groups, e.target ctx r f link level = .ok t →
      (e.loadTargets r f t records values).outcome = .ok groups → ∃ groups',
      (e.loadTargets r g t records values').outcome = .ok groups' ∧ t.kept g groups' = t.kept f groups)
    (renders : Renders render (level.enter f.name) (other.enter g.name))
    (h : (e.renderRelated ctx render r f link records values level).outcome = .ok column) :
    (e.renderRelated ctx render r g link records values' other).outcome = .ok column := by
  obtain ⟨t, groups, rendered, ht, hgroups, hrendered, rfl⟩ := outcome_renderRelated.mp h
  obtain ⟨groups', hgroups', hkept⟩ := load t groups ht hgroups
  obtain ⟨_, _, settled⟩ := target_eq_ok.mp ht
  have kept : (t.at (other.enter g.name)).kept g groups' = t.kept f groups := hkept
  have load' : e.loadTargets r g (t.at (other.enter g.name)) records values' =
      e.loadTargets r g t records values' := rfl
  have linked : linkedValue g = linkedValue f := by
    funext items
    rw [linkedValue, linkedValue, list]
  refine outcome_renderRelated.mpr ⟨_, groups', rendered, target_alike hcan alike ht,
    (congrArg Run.outcome load').trans hgroups', ?_, ?_⟩
  · rw [Target.child, kept]
    exact renders (t.child f groups) settled.entered (some g) rendered hrendered
  · rw [Target.dealt, Target.dealt, kept, linked]

theorem isDeep_alike (alike : ctx.query.Alike level other) (scope : Scope) (f : Field) :
    isDeep ctx scope f other = isDeep ctx scope f level := by
  unfold isDeep
  rw [alike.below, alike.below']

/-- The same records become the same at levels that are alike. -/
theorem render_alike (alike : ctx.query.Alike level other) (fuel : Nat) :
    Renders (e.render ctx fuel) level other := by
  induction fuel generalizing level other with
  | zero => exact fun _ _ _ _ h => by cases h
  | succ fuel ih =>
    rintro b rfl via rows h
    obtain ⟨scope, columns, hscope, hcolumns, rfl⟩ := outcome_render.mp h
    refine outcome_render.mpr ⟨scope, columns, alike.scope hscope, hcolumns.imp fun f column hf => ?_, ?_⟩
    · cases hdeep : isDeep ctx scope f b.level with
      | false =>
        have flat : isDeep ctx scope f other = false := (isDeep_alike alike scope f).trans hdeep
        exact (renderColumn_flat flat).mpr ((renderColumn_flat hdeep).mp hf)
      | true =>
        have deep : isDeep ctx scope f other = true := (isDeep_alike alike scope f).trans hdeep
        obtain ⟨link, hlink⟩ := link?_of_renderColumn hdeep alike.below hf
        obtain ⟨values, hvalues, hf⟩ := (outcome_renderColumn_deep hdeep hlink).mp hf
        exact (outcome_renderColumn_deep deep hlink).mpr ⟨values, hvalues,
          renderRelated_alike rfl rfl (alike.enter f.name) (fun t groups _ h => ⟨groups, h, rfl⟩)
            (ih (alike.enter f.name)) hf⟩
    · rw [alike.below, alike.below']

end Engine
end RecordGraph
