import RecordGraph.Proofs.Expr.Literal
import RecordGraph.Proofs.Permission.Access
import RecordGraph.Proofs.Run.Render

/-!
Where a read is refused: by the permission of its resource, by that of the field it targets, or below a
relation that leads to a resource closed to the requester. All other failures are no refusals.
-/
namespace RecordGraph

/-- Errors that refuse an action, whatever the graph and the store hold. -/
def QueryError.refuses : QueryError → Bool
  | .forbidden _ _ | .methodNotAllowed _ _ _ | .execution (.unsupported _) => true
  | _ => false

/-- A computation that refuses in certain ways only, though it may fail in others. -/
def RefusesOnly {α : Type} (ways : QueryError → Prop) (x : Except QueryError α) : Prop :=
  ∀ error, x = .error error → error.refuses → ways error

/-- A computation that never refuses. -/
abbrev Admitted {α : Type} (x : Except QueryError α) : Prop := RefusesOnly (fun _ => False) x

namespace RefusesOnly
variable {α β : Type} {ways : QueryError → Prop} {x : Except QueryError α}

theorem ok (a : α) : RefusesOnly ways (.ok a) := by rintro _ ⟨⟩

theorem error {error : QueryError} (h : error.refuses = false) :
    RefusesOnly ways (.error error : Except QueryError α) := by
  rintro _ ⟨⟩ refuses
  rw [h] at refuses
  cases refuses

theorem refusal {error : QueryError} (h : ways error) :
    RefusesOnly ways (.error error : Except QueryError α) := by
  rintro _ ⟨⟩ -
  exact h

theorem bind {f : α → Except QueryError β} (hx : RefusesOnly ways x)
    (hf : ∀ a, x = .ok a → RefusesOnly ways (f a)) : RefusesOnly ways (x.bind f) := by
  cases x with
  | ok a => exact hf a rfl
  | error e =>
    rintro _ ⟨⟩ refuses
    exact hx e rfl refuses

theorem map {f : α → β} (hx : RefusesOnly ways x) : RefusesOnly ways (x.map f) := by
  cases x with
  | ok a => exact ok (f a)
  | error e =>
    rintro _ ⟨⟩ refuses
    exact hx e rfl refuses

theorem mapM {f : α → Except QueryError β} {xs : List α} (h : ∀ a ∈ xs, RefusesOnly ways (f a)) :
    RefusesOnly ways (xs.mapM f) := by
  induction xs with
  | nil => exact ok []
  | cons a xs ih =>
    rw [List.forall_mem_cons] at h
    rw [Except.mapM_cons]
    exact bind h.1 fun _ _ => map (ih h.2)

theorem of_admitted (hx : Admitted x) : RefusesOnly ways x :=
  fun e he refuses => (hx e he refuses).elim

end RefusesOnly

/-! Preparing -/

section preparing
variable (e : Engine) (r : Resource) (ctx : Context)

theorem Resource.admitted_storagePath (name : String) : Admitted (r.storagePath name) := by
  unfold Resource.storagePath
  split
  · exact .error rfl
  · split
    · exact .error rfl
    · exact .ok _

namespace Server
variable (s : Server)

theorem admitted_storageSegments (names : List String) : Admitted (s.storageSegments r names) := by
  induction names generalizing r with
  | nil => exact .error rfl
  | cons name names ih =>
    cases names with
    | nil => exact .map (r.admitted_storagePath name)
    | cons next names =>
      refine .bind (r.admitted_storagePath name) fun found _ => ?_
      dsimp only
      split
      · exact .map (ih _)
      · exact .ok _

theorem admitted_toStorage (v : Value) : Admitted (s.toStorage r v) := by
  induction v with
  | str path =>
    unfold toStorage
    split
    · exact .ok _
    · exact .map (s.admitted_storageSegments r _)
  | arr xs ih =>
    rw [toStorage, toStorageItems_eq]
    exact .map (.mapM ih)
  | obj es ih =>
    rw [toStorage]
    refine .map ?_
    induction es with
    | nil => exact .ok []
    | cons entry es rest =>
      rw [List.forall_mem_cons] at ih
      refine .bind ?_ fun _ _ => .map (rest ih.2)
      split
      · exact .ok _
      · exact ih.1
  | null | bool | num => exact .ok _

theorem admitted_sortKeys (keys : List String) : Admitted (s.sortKeys r keys) :=
  .mapM fun _ _ => .map (s.admitted_storageSegments r _)

end Server

namespace Engine

theorem admitted_preparePredicate (predicate : Value) :
    Admitted (e.preparePredicate r ctx predicate) := by
  unfold preparePredicate
  split
  · exact .error rfl
  · exact e.server.admitted_toStorage r _

theorem admitted_prepareAll (access : Access) (filter : Option Value) :
    Admitted (e.prepareAll r ctx access filter) :=
  .mapM fun predicate _ => e.admitted_preparePredicate r ctx predicate

theorem admitted_prepareSort (sort : Option (List String)) : Admitted (e.prepareSort r sort) := by
  cases sort with
  | none => exact .ok _
  | some keys => exact e.server.admitted_sortKeys r keys

end Engine
end preparing

/-! Permissions and selection -/

section permissions
variable {r : Resource} {ctx : Context} {settings : Settings}

theorem admitted_collectRules (scope : Value) (id : String) (rules : List (String × Value)) :
    Admitted (collectRules scope id rules) := by
  induction rules with
  | nil => exact .ok _
  | cons rule rules ih =>
    unfold collectRules
    split
    · exact .error rfl
    · split
      · exact .ok _
      · exact ih
      · exact .map ih

theorem admitted_ruledAccess (r : Resource) (action : String) (ctx : Context) :
    Admitted (ruledAccess r action ctx) := by
  by_cases hcovering : r.covering action = []
  · rw [ruledAccess_uncovered ctx hcovering]
    exact .ok _
  · rw [ruledAccess_covered ctx hcovering]
    exact .map (admitted_collectRules _ _ _)

theorem admitted_prefetchGranted (r : Resource) (ctx : Context) (field : Option Field) :
    Admitted (prefetchGranted r ctx field) := by
  unfold prefetchGranted
  split
  · exact .ok _
  · split
    · exact .error rfl
    · exact .ok _
    · exact .ok _
    · exact .error rfl

theorem admitted_can (r : Resource) (action : String) (ctx : Context) (field : Option Field) :
    Admitted (can r action ctx field) := by
  refine .bind (admitted_prefetchGranted r ctx field) fun granted _ => ?_
  cases granted with
  | true => exact .ok _
  | false => exact admitted_ruledAccess r _ ctx

theorem admitted_ruleAllows (ctx : Context) (rule : Value) : Admitted (ruleAllows ctx rule) := by
  unfold ruleAllows
  split
  · exact .ok _
  · split
    · exact .ok _
    · exact .error rfl
  · exact .ok _

theorem admitted_isAvailable (f : Field) (ctx : Context) : Admitted (isAvailable f ctx) := by
  unfold isAvailable
  split
  · exact .ok _
  · split
    · exact .ok _
    · exact .error rfl

theorem admitted_canTakeField (f : Field) (action : String) (ctx : Context) (settings : Settings) :
    Admitted (canTakeField f action ctx settings) := by
  refine .bind (admitted_isAvailable f ctx) fun available _ => ?_
  cases available with
  | false => exact .ok _
  | true =>
    simp only [Bool.not_true, Bool.false_eq_true, if_false]
    by_cases hempty : (permissionTable f settings).isEmpty = true
    · rw [if_pos hempty]
      exact .ok _
    · rw [if_neg hempty]
      cases ((permissionTable f settings).get? action).or ((permissionTable f settings).get? "*") with
      | none => exact .ok _
      | some rule => exact admitted_ruleAllows ctx rule

theorem admitted_permitted (take : Option (Entries Take)) (idName action : String) (ctx : Context)
    (settings : Settings) (fields : List Field) :
    Admitted (permitted take idName action ctx settings fields) := by
  induction fields with
  | nil => exact .ok _
  | cons f fields ih =>
    unfold permitted
    split
    · exact .bind (admitted_canTakeField f action ctx settings) fun _ _ => .bind ih fun _ _ => .ok _
    · exact .bind (.ok _) fun _ _ => .bind ih fun _ _ => .ok _

theorem Query.admitted_scope (q : Query) (level : Level) : Admitted (q.scope level) := by
  have located (below : Level) : Admitted (q.locate below) := by
    unfold Query.locate
    split
    · exact .ok _
    · exact .error rfl
  unfold Query.scope
  split
  · exact .map (located level)
  · split
    · exact .ok _
    · exact .map (located _)

/-- Selecting fields refuses only the field that a query targets. -/
theorem admitted_takeFields (action : String) (settings : Settings) {level : Level}
    (h : ctx.query.field = none ∨ level ≠ []) : Admitted (takeFields r action level ctx settings) := by
  unfold takeFields
  split
  · rename_i hfield
    rcases h with h | h
    · cases h.symm.trans hfield
    · exact absurd rfl h
  · exact .bind (ctx.query.admitted_scope _) fun _ _ => admitted_permitted _ _ _ _ _ _

end permissions

/-! Rendering -/

namespace RefusesOnly
variable {α β : Type} {ways : QueryError → Prop}

theorem outcome_bind {run : Run α} {next : α → Run β} (h : RefusesOnly ways run.outcome)
    (hnext : ∀ a, run.outcome = .ok a → RefusesOnly ways (next a).outcome) :
    RefusesOnly ways (run >>= next).outcome := by
  obtain ⟨calls, handed, outcome⟩ := run
  cases outcome with
  | ok a => exact hnext a rfl
  | error e =>
    rintro _ ⟨⟩ refuses
    exact h e rfl refuses

theorem outcome_each {f : α → Run β} {xs : List α} (h : ∀ x ∈ xs, RefusesOnly ways (f x).outcome) :
    RefusesOnly ways (Run.each f xs).outcome := by
  induction xs with
  | nil => exact ok []
  | cons x xs ih =>
    rw [List.forall_mem_cons] at h
    exact outcome_bind h.1 fun _ _ => outcome_bind (ih h.2) fun _ _ => ok _

end RefusesOnly

theorem Store.admitted_answer {α : Type} (x : Except StoreError α) : Admitted (Store.answer x) := by
  cases x with
  | ok a => exact .ok a
  | error e => exact .error rfl

namespace Engine
variable {e : Engine} {ctx : Context} {r : Resource} {f : Field} {link : String} {t : Target}
  {error : QueryError}

/-- A relation whose target is closed to the requester. -/
def Shut (e : Engine) (ctx : Context) (r : Resource) (f : Field) (error : QueryError) : Prop :=
  ∃ link related, f.link? = some link ∧ e.server.resolveLink r.space link = some related ∧
    can related "get.prefetch" ctx (some f) = .ok .denied ∧
    error = .forbidden "get.prefetch" related.id

theorem admitted_fieldValue (ctx : Context) (r : Resource) (f : Field) (record : Option Record) :
    Admitted (fieldValue ctx r f record) := by
  unfold fieldValue
  cases f.source with
  | path p =>
    cases record with
    | none => exact .error rfl
    | some record =>
      simp only [Except.monad_bind, Except.ok_bind]
      split <;> exact .ok _
  | context p =>
    simp only [Except.monad_bind, Except.ok_bind]
    split <;> exact .ok _
  | expression expr =>
    dsimp only
    cases Expr.eval (ctx.recordScope record) expr with
    | ok v =>
      simp only [Except.monad_bind, Except.ok_bind]
      split <;> exact .ok _
    | error e => exact .error rfl

theorem enter_ne_nil (level : Level) (name : String) : level.enter name ≠ [] := by
  simp [Level.enter, Level.ofText, Text.pieces_ne_nil]

/-- Finding the target of a relation is refused only where this is closed. -/
theorem refusesOnly_target (hlink : f.link? = some link) (level : Level) :
    RefusesOnly (e.Shut ctx r f) (e.target ctx r f link level) := by
  unfold target
  cases hrelated : e.server.resolveLink r.space link with
  | none => exact .error rfl
  | some related =>
    refine .bind (.of_admitted (admitted_can _ _ _ _)) fun access haccess => ?_
    cases access with
    | denied => exact .refusal ⟨link, related, hlink, hrelated, haccess, rfl⟩
    | all | only predicate =>
      refine .bind (.of_admitted (admitted_takeFields _ _ (.inr (enter_ne_nil _ _)))) fun _ _ => ?_
      refine .bind (.of_admitted (ctx.query.admitted_scope _)) fun scope _ => ?_
      refine .bind (.of_admitted (e.admitted_prepareAll _ _ _ _)) fun _ _ => ?_
      refine .bind (.of_admitted (e.admitted_prepareSort _ _)) fun _ _ => ?_
      cases related.source with
      | none => exact .error rfl
      | some source => exact .ok _

theorem admitted_loadTargets (e : Engine) (r : Resource) (f : Field) (t : Target)
    (records : List (Option Record)) (values : List Value) :
    Admitted (e.loadTargets r f t records values).outcome := by
  have computed : Admitted (e.loadComputed t values).outcome := by
    unfold loadComputed
    dsimp only
    split
    · exact .ok _
    · exact .outcome_bind (Store.admitted_answer _) fun _ _ => .ok _
  unfold loadTargets
  split
  · exact .outcome_bind (Store.admitted_answer _) fun _ _ => .ok _
  · exact computed

/-- A relation that is closed, of a batch or of one that is reached from it. -/
def ShutBelow (e : Engine) (ctx : Context) (top : Batch) (error : QueryError) : Prop :=
  ∃ b f, Relation.ReflTransGen (Batch.Below e) top b ∧ b.Deep ctx f ∧ e.Shut ctx b.resource f error

theorem ShutBelow.head {top child : Batch} (below : top.Below e child)
    (h : e.ShutBelow ctx child error) : e.ShutBelow ctx top error := by
  obtain ⟨b, f, reached, rest⟩ := h
  exact ⟨b, f, .head below reached, rest⟩

/-- A column refuses at its own relation, or as the batch of its targets does. -/
theorem refusesOnly_renderColumn {render : Renderer} {scope : Scope} {parent : Batch}
    (hrender : ∀ child, RefusesOnly (e.ShutBelow ctx child) (render child).outcome)
    (hscope : ctx.query.scope parent.level = .ok scope) (hf : f ∈ parent.fields) :
    RefusesOnly (e.ShutBelow ctx parent) (e.renderColumn ctx render scope parent f).outcome := by
  unfold renderColumn
  refine .outcome_bind (.mapM fun record _ => .of_admitted (admitted_fieldValue ctx _ f record))
    fun values _ => ?_
  cases hdeep : isDeep ctx scope f parent.level with
  | false => exact .ok _
  | true =>
    simp only [Bool.not_true, Bool.false_eq_true, if_false]
    cases hlink : f.link? with
    | none =>
      dsimp only
      split
      · exact .ok _
      · exact .error rfl
    | some link =>
      have deep : parent.Deep ctx f := ⟨hf, by simp [hlink], scope, hscope, hdeep⟩
      refine .outcome_bind ?_ fun t ht => ?_
      · intro error h refuses
        exact ⟨parent, f, .refl, deep, refusesOnly_target hlink _ error h refuses⟩
      refine .outcome_bind (.of_admitted (e.admitted_loadTargets _ _ _ _ _)) fun groups _ => ?_
      refine .outcome_bind ?_ fun _ _ => .ok _
      obtain ⟨_, _, settled⟩ := target_eq_ok.mp ht
      intro error h refuses
      exact .head ⟨f, hf, link, rfl, hlink, settled.resolved, settled.entered⟩ (hrender _ error h refuses)

/-- Rendering is refused only where a relation that is followed leads to a closed resource. -/
theorem refusesOnly_render (fuel : Nat) (top : Batch) :
    RefusesOnly (e.ShutBelow ctx top) (e.render ctx fuel top).outcome := by
  induction fuel generalizing top with
  | zero => exact .error rfl
  | succ fuel ih =>
    rw [render]
    refine .outcome_bind (.ok _) fun _ _ => ?_
    refine .outcome_bind (.of_admitted (ctx.query.admitted_scope _)) fun scope hscope => ?_
    refine .outcome_bind (.outcome_each fun f hf => ?_) fun _ _ => .ok _
    exact refusesOnly_renderColumn ih hscope hf

end Engine
end RecordGraph
