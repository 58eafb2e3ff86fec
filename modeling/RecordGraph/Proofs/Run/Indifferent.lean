import RecordGraph.Proofs.Entries
import RecordGraph.Proofs.Permission.Access
import RecordGraph.Run.Render

/-!
What does not read the query is the same for all queries of a request: the access to a resource, the
fields that may be taken, the predicates that are prepared, and the values of fields.
-/
namespace RecordGraph

/-- What is made of a context does not depend on its query. -/
def Indifferent {α : Type} (request : Value) (make : Context → α) : Prop :=
  ∀ q q' : Query, make ⟨q, request⟩ = make ⟨q', request⟩

/-- The source of a field does not read the query. -/
def FieldSource.Blind (request : Value) : FieldSource → Prop
  | .path _ => True
  | .context p => ∀ record, Indifferent request fun ctx => (ctx.recordScope record).lookup p
  | .expression expr =>
    ∀ record, Indifferent request fun ctx => Expr.eval (ctx.recordScope record) expr

/-- No rule or condition of a resource and its fields reads the query. -/
structure Resource.RulesBlind (r : Resource) (settings : Settings) (request : Value) : Prop where
  rules : ∀ rule ∈ r.can.getD [], Indifferent request fun ctx => resolve ctx.scope rule.2
  conditions : ∀ f ∈ r.fields, ∀ condition, f.depends = some condition →
    Indifferent request fun ctx => Expr.eval ctx.scope condition
  fieldRules : ∀ f ∈ r.fields, ∀ rule ∈ permissionTable f settings,
    Indifferent request fun ctx => Expr.eval ctx.scope rule.2

/-- Neither the rules of a resource and its fields, nor the sources of the fields read the query. -/
structure Resource.Blind (r : Resource) (settings : Settings) (request : Value) : Prop where
  rules : ∀ rule ∈ r.can.getD [], Indifferent request fun ctx => resolve ctx.scope rule.2
  conditions : ∀ f ∈ r.fields, ∀ condition, f.depends = some condition →
    Indifferent request fun ctx => Expr.eval ctx.scope condition
  fieldRules : ∀ f ∈ r.fields, ∀ rule ∈ permissionTable f settings,
    Indifferent request fun ctx => Expr.eval ctx.scope rule.2
  sources : ∀ f ∈ r.fields, f.source.Blind request

/-- Nothing that a list of a resource is made with reads the query: no rule or source, nor the predicate
that the rules come to, nor the filter. -/
structure Engine.Blind (e : Engine) (r : Resource) (q : Query) (request : Value) : Prop
    extends r.Blind e.settings request where
  permission : ∀ access, can r "get.resource" ⟨q, request⟩ none = .ok access →
    ∀ predicate, access.predicate? = some predicate →
      Indifferent request fun ctx => resolve ctx.scope predicate
  filter : ∀ predicate, q.filter = some predicate →
    Indifferent request fun ctx => resolve ctx.scope predicate

section
variable {request : Value} {r : Resource} {settings : Settings}

theorem Resource.Blind.rulesBlind (h : r.Blind settings request) : r.RulesBlind settings request :=
  ⟨h.rules, h.conditions, h.fieldRules⟩

/-! Access -/

theorem collectRules_congr {scope scope' : Value} (id : String) {rules : List (String × Value)}
    (h : ∀ rule ∈ rules, resolve scope rule.2 = resolve scope' rule.2) :
    collectRules scope id rules = collectRules scope' id rules := by
  induction rules with
  | nil => rfl
  | cons rule rules ih =>
    rw [List.forall_mem_cons] at h
    rw [collectRules, collectRules, h.1, ih h.2]

theorem indifferent_can (h : r.RulesBlind settings request) (action : String) :
    Indifferent request fun ctx => can r action ctx none := by
  intro q q'
  dsimp only
  rw [can_none, can_none]
  by_cases hcovering : r.covering (Text.lower action) = []
  · rw [ruledAccess_uncovered _ hcovering, ruledAccess_uncovered _ hcovering]
  · rw [ruledAccess_covered _ hcovering, ruledAccess_covered _ hcovering]
    have hrules (rule) (hmem : rule ∈ r.covering (Text.lower action)) :=
      h.rules rule (List.mem_of_mem_filter hmem) q q'
    rw [collectRules_congr r.id hrules]

/-! Fields -/

theorem indifferent_ruleAllows {rule : Value}
    (h : Indifferent request fun ctx => Expr.eval ctx.scope rule) :
    Indifferent request fun ctx => ruleAllows ctx rule := by
  intro q q'
  cases rule with
  | obj es =>
    have heval : Expr.eval (Context.scope ⟨q, request⟩) (.obj es) =
        Expr.eval (Context.scope ⟨q', request⟩) (.obj es) := h q q'
    dsimp only
    rw [ruleAllows, ruleAllows, heval]
  | _ => rfl

theorem indifferent_isAvailable {f : Field} (h : ∀ condition, f.depends = some condition →
    Indifferent request fun ctx => Expr.eval ctx.scope condition) :
    Indifferent request fun ctx => isAvailable f ctx := by
  intro q q'
  unfold isAvailable
  cases hdepends : f.depends with
  | none => rfl
  | some condition =>
    have heval : Expr.eval (Context.scope ⟨q, request⟩) condition =
        Expr.eval (Context.scope ⟨q', request⟩) condition := h condition hdepends q q'
    dsimp only
    rw [heval]

theorem indifferent_canTakeField (h : r.RulesBlind settings request) {f : Field} (hf : f ∈ r.fields)
    (action : String) : Indifferent request fun ctx => canTakeField f action ctx settings := by
  intro q q'
  have havailable : isAvailable f ⟨q, request⟩ = isAvailable f ⟨q', request⟩ :=
    indifferent_isAvailable (h.conditions f hf) q q'
  have hrule (key : String) (rule : Value) (hget : (permissionTable f settings).get? key = some rule) :
      ruleAllows ⟨q, request⟩ rule = ruleAllows ⟨q', request⟩ rule :=
    indifferent_ruleAllows (h.fieldRules f hf _ (Entries.mem_of_get? hget)) q q'
  dsimp only
  unfold canTakeField
  rw [havailable]
  congr 1
  funext available
  cases hfound : ((permissionTable f settings).get? action).or
      ((permissionTable f settings).get? "*") with
  | none => simp only [hfound]
  | some rule =>
    obtain hget | ⟨-, hget⟩ := Option.or_eq_some_iff.mp hfound <;> simp only [hfound, hrule _ _ hget]

theorem permitted_congr {take : Option (Entries Take)} {idName action : String} {q q' : Query}
    {fields : List Field} (h : ∀ f ∈ fields,
      canTakeField f action ⟨q, request⟩ settings = canTakeField f action ⟨q', request⟩ settings) :
    permitted take idName action ⟨q, request⟩ settings fields =
      permitted take idName action ⟨q', request⟩ settings fields := by
  induction fields with
  | nil => rfl
  | cons f fields ih =>
    rw [List.forall_mem_cons] at h
    rw [permitted, permitted, h.1, ih h.2]

/-! Values and predicates -/

namespace Engine

theorem indifferent_fieldValue {f : Field} (h : f.source.Blind request) (record : Option Record) :
    Indifferent request fun ctx => fieldValue ctx r f record := by
  intro q q'
  unfold fieldValue
  cases hsource : f.source with
  | path p => rfl
  | context p =>
    rw [hsource] at h
    have hlookup : (Context.recordScope ⟨q, request⟩ record).lookup p =
        (Context.recordScope ⟨q', request⟩ record).lookup p := h record q q'
    dsimp only
    rw [hlookup]
  | expression expr =>
    rw [hsource] at h
    have heval : Expr.eval (Context.recordScope ⟨q, request⟩ record) expr =
        Expr.eval (Context.recordScope ⟨q', request⟩ record) expr := h record q q'
    dsimp only
    rw [heval]

theorem indifferent_preparePredicate (e : Engine) {predicate : Value}
    (h : Indifferent request fun ctx => resolve ctx.scope predicate) :
    Indifferent request fun ctx => e.preparePredicate r ctx predicate := by
  intro q q'
  have hresolve : resolve (Context.scope ⟨q, request⟩) predicate =
      resolve (Context.scope ⟨q', request⟩) predicate := h q q'
  dsimp only
  rw [preparePredicate, preparePredicate, hresolve]

theorem prepareAll_congr {e : Engine} {q q' : Query} {access : Access} {filter : Option Value}
    (permission : ∀ predicate, access.predicate? = some predicate →
      Indifferent request fun ctx => resolve ctx.scope predicate)
    (filters : ∀ predicate, filter = some predicate →
      Indifferent request fun ctx => resolve ctx.scope predicate) :
    e.prepareAll r ⟨q, request⟩ access filter = e.prepareAll r ⟨q', request⟩ access filter := by
  refine Except.mapM_congr fun predicate hp => ?_
  rcases List.mem_append.mp hp with hp | hp
  · exact indifferent_preparePredicate e (permission predicate (Option.mem_toList.mp hp)) q q'
  · exact indifferent_preparePredicate e (filters predicate (Option.mem_toList.mp hp)) q q'

end Engine
end
end RecordGraph
