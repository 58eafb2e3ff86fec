import RecordGraph.Proofs.Predicate.Prepare

/-!
What the access to a resource lets pass. The access is decided on resolved rules; a record passes it
if some rule that covers the action holds on the record, or points at an empty text.
-/
namespace RecordGraph
variable {e : Engine} {r : Resource} {ctx : Context}

/-- The rules of a table: truth values, references, and trees over references, literals and fields. -/
inductive Rule (r : Resource) (ctx : Context) : Value → Prop
  | bool (b : Bool) : Rule r ctx (.bool b)
  | reference {s path : String} (h : Text.afterChar? '.' s = some path) (points : ctx.Refers path) :
    Rule r ctx (.str s)
  | tree {es : List (String × Value)} (formula : Formula r ctx.Refers (.obj es)) : Rule r ctx (.obj es)

/-- A reference to an empty text, which is true once it is quoted. -/
def Context.Blank (ctx : Context) (rule : Value) : Prop :=
  ∃ s path, rule = .str s ∧ Text.afterChar? '.' s = some path ∧
    ctx.scope.lookup path = some (.str "")

/-- A rule that is decided without the record, and counts as true once it is. -/
def Context.Grants (ctx : Context) (rule : Value) : Prop :=
  ∃ q, resolve ctx.scope rule = .ok q ∧ q.obj? = none ∧ Expr.truthy q

/-- The records that an access lets pass: those its prepared predicate selects. -/
def Access.Passes (e : Engine) (r : Resource) (ctx : Context) (access : Access) (record : Record) :
    Prop :=
  match access with
  | .all => True
  | .denied => False
  | .only predicate => e.Selects r ctx predicate record

/-! Single rules -/

theorem Rule.formula {rule : Value} (h : Rule r ctx rule) : Formula r ctx.Refers rule := by
  cases h with
  | bool b => exact .bool b
  | reference h points => exact .reference h points
  | tree formula => exact formula

/-- A rule that is decided without the record has the same value on all records. It is decided as it
evaluates, but for a reference to an empty text. -/
theorem Rule.decided {rule q : Value} (h : Rule r ctx rule) (hq : resolve ctx.scope rule = .ok q)
    (decided : q.obj? = none) :
    ∃ v, (∀ record, Expr.eval (ctx.recordScope record) rule = .ok v) ∧
      (Expr.truthy q ↔ Expr.truthy v ∨ ctx.Blank rule) := by
  cases h with
  | bool b =>
    cases hq
    exact ⟨.bool b, fun _ => rfl, by simp [Context.Blank]⟩
  | @reference s path h points =>
    cases (resolve_reference h points).symm.trans hq
    refine ⟨ctx.target path, eval_reference h points, ?_⟩
    have blank : ctx.Blank (.str s) ↔ ctx.target path = .str "" := by
      unfold Context.Blank Context.target
      cases hv : ctx.scope.lookup path <;> simp [h, hv]
    rw [blank]
    have flat := points.flat_target
    cases hv : ctx.target path with
    | str t =>
      have quoted : (Expr.quote t).isEmpty = false := by simp [Expr.quote, ← String.toList_inj]
      simpa [Expr.makeLiteral, Expr.truthy, quoted] using ne_or_eq t ""
    | arr xs => cases hv ▸ flat.1
    | obj es => cases hv ▸ flat.2
    | _ => simp [Expr.makeLiteral]
  | @tree es formula =>
    have resolved := resolve_formula formula hq
    obtain ⟨b, rfl⟩ := resolved.folded es rfl decided
    refine ⟨.bool b, fun record => (resolved.same record).symm, ?_⟩
    simp [Context.Blank]

/-! Tables of rules -/

/-- The rules that remain predicates, and what they come to together. -/
structure Collected (r : Resource) (ctx : Context) (rules : List (String × Value)) (ps : List Value) :
    Prop where
  refused : ∀ rule ∈ rules, ¬ctx.Grants rule.2
  settled : ∀ p ∈ ps, Settled r p
  stays : ∀ p ∈ ps, resolve ctx.scope p = .ok p
  maps : ∀ p ∈ ps, p.obj? ≠ none
  same : ∀ record, Expr.evalAny (ctx.recordScope record) ps =
    Expr.evalAny (ctx.recordScope record) (rules.map Prod.snd)

theorem grants_iff {rule q : Value} (hq : resolve ctx.scope rule = .ok q) :
    ctx.Grants rule ↔ q.obj? = none ∧ Expr.truthy q := by
  simp [Context.Grants, hq]

theorem Verdict.ofResolved_decided {q : Value} (decided : q.obj? = none) :
    Verdict.ofResolved q = if Expr.truthy q then .holds else .fails := by
  cases q <;> first | rfl | cases decided

theorem Verdict.ofResolved_map {q : Value} (map : q.obj? ≠ none) :
    Verdict.ofResolved q = .depends q := by
  cases q <;> first | rfl | exact absurd rfl map

section step
variable {key id : String} {rule q : Value} {rules : List (String × Value)}

/-- A rule that is false without the record is passed over. -/
theorem collectRules_fails (hq : resolve ctx.scope rule = .ok q) (decided : q.obj? = none)
    (ht : ¬Expr.truthy q) :
    collectRules ctx.scope id ((key, rule) :: rules) = collectRules ctx.scope id rules := by
  simp [collectRules, hq, Verdict.ofResolved_decided decided, ht]

theorem collectRules_holds (hq : resolve ctx.scope rule = .ok q) (decided : q.obj? = none)
    (ht : Expr.truthy q) : collectRules ctx.scope id ((key, rule) :: rules) = .ok none := by
  simp [collectRules, hq, Verdict.ofResolved_decided decided, ht]

theorem collectRules_depends (hq : resolve ctx.scope rule = .ok q) (map : q.obj? ≠ none) :
    collectRules ctx.scope id ((key, rule) :: rules) =
      (collectRules ctx.scope id rules).map fun found => found.map (q :: ·) := by
  simp [collectRules, hq, Verdict.ofResolved_map map]

end step

/-- Rules that resolve are collected, unless one of them is true without the record. -/
theorem collectRules_cases (id : String) {rules : List (String × Value)}
    (known : ∀ rule ∈ rules, Rule r ctx rule.2)
    (resolves : ∀ rule ∈ rules, ∃ q, resolve ctx.scope rule.2 = .ok q) :
    (collectRules ctx.scope id rules = .ok none ∧ ∃ rule ∈ rules, ctx.Grants rule.2) ∨
      ∃ ps, collectRules ctx.scope id rules = .ok (some ps) ∧ Collected r ctx rules ps := by
  induction rules with
  | nil => exact .inr ⟨[], rfl, by simp, by simp, by simp, by simp, fun _ => rfl⟩
  | cons rule rules ih =>
    obtain ⟨key, rule⟩ := rule
    rw [List.forall_mem_cons] at known resolves
    obtain ⟨⟨q, hq⟩, resolves⟩ := resolves
    have grants := grants_iff hq
    by_cases decided : q.obj? = none
    · by_cases ht : Expr.truthy q
      · exact .inl ⟨collectRules_holds hq decided ht, (key, rule), List.mem_cons_self,
          grants.mpr ⟨decided, ht⟩⟩
      · rw [collectRules_fails hq decided ht]
        obtain ⟨hnone, other, hmem, hother⟩ | ⟨ps, hps, collected⟩ := ih known.2 resolves
        · exact .inl ⟨hnone, other, List.mem_cons_of_mem _ hmem, hother⟩
        · obtain ⟨v, hv, htruthy⟩ := known.1.decided hq decided
          have hfalse : ¬Expr.truthy v := fun h => ht (htruthy.mpr (.inl h))
          refine .inr ⟨ps, hps, ?_, collected.settled, collected.stays, collected.maps,
            fun record => ?_⟩
          · exact List.forall_mem_cons.mpr ⟨fun h => ht (grants.mp h).2, collected.refused⟩
          · rw [List.map_cons, Expr.evalAny, hv, Except.ok_bind, if_neg hfalse, collected.same]
    · have resolved := resolve_formula known.1.formula hq
      rw [collectRules_depends hq decided]
      obtain ⟨hnone, other, hmem, hother⟩ | ⟨ps, hps, collected⟩ := ih known.2 resolves
      · exact .inl ⟨by rw [hnone]; rfl, other, List.mem_cons_of_mem _ hmem, hother⟩
      · refine .inr ⟨q :: ps, by rw [hps]; rfl, ?_, ?_, ?_, ?_, fun record => ?_⟩
        · exact List.forall_mem_cons.mpr ⟨fun h => decided (grants.mp h).1, collected.refused⟩
        · exact List.forall_mem_cons.mpr ⟨resolved.settled, collected.settled⟩
        · exact List.forall_mem_cons.mpr ⟨resolved.stays, collected.stays⟩
        · exact List.forall_mem_cons.mpr ⟨decided, collected.maps⟩
        · rw [List.map_cons, Expr.evalAny, Expr.evalAny, resolved.same, collected.same]

/-! The records that pass -/

/-- A resolved predicate lets a record pass if it holds on the view of the record. -/
theorem passes_only {p : Value} (settled : Settled r p) (stays : resolve ctx.scope p = .ok p)
    (record : Record) :
    (Access.only p).Passes e r ctx record ↔
      Expr.Holds (ctx.recordScope (some (r.view record))) p := by
  obtain ⟨p', hp', -, same⟩ := toStorage_settled e.server settled
  have prepared : e.preparePredicate r ctx p = .ok p' :=
    Engine.preparePredicate_eq_ok.mpr ⟨p, stays, hp'⟩
  simp only [Access.Passes, Engine.Selects, prepared, Except.ok.injEq, exists_eq_left',
    Store.isMatch, same ctx record, Expr.Holds]
  cases Expr.eval (ctx.recordScope (some (r.view record))) p <;> simp

/-- The access that collected predicates give. -/
def Access.ofCollected : Option (List Value) → Access
  | none => .all
  | some [] => .denied
  | some [p] => .only p
  | some ps => .only (.node "or" (.arr ps))

/-- A disjunction of maps is left by resolving if they are. -/
theorem resolve_or {scope : Value} {ps : List Value} (filled : ps ≠ [])
    (stays : ∀ p ∈ ps, resolve scope p = .ok p) (maps : ∀ p ∈ ps, p.obj? ≠ none) :
    resolve scope (.node "or" (.arr ps)) = .ok (.node "or" (.arr ps)) := by
  have items : resolve scope (.arr ps) = .ok (.arr ps) := by
    refine resolve_arr_eq_ok.mpr ⟨_, ?_, rfl⟩
    rwa [List.forall₂_same]
  -- maps are not literal, so that the disjunction is not folded
  have kept : Expr.isLiteral (.arr ps) = false := by
    obtain ⟨p, ps, rfl⟩ := List.exists_cons_of_ne_nil filled
    have map := maps p (by simp)
    cases p <;> first | rfl | exact absurd rfl map
  exact resolve_node_eq_ok.mpr ⟨_, items, by simp [fold, kept, Value.node]⟩

theorem passes_collected {rules : List (String × Value)} {ps : List Value}
    (collected : Collected r ctx rules ps) (record : Record) :
    (Access.ofCollected (some ps)).Passes e r ctx record ↔
      Expr.evalAny (ctx.recordScope (some (r.view record))) (rules.map Prod.snd) = .ok true := by
  rw [← collected.same]
  rcases ps with _ | ⟨p, _ | ⟨q, ps⟩⟩
  · simp [Access.ofCollected, Access.Passes, Expr.evalAny]
  · rw [Access.ofCollected, passes_only (collected.settled p (by simp)) (collected.stays p (by simp))]
    simp only [Expr.evalAny, Expr.Holds]
    cases Expr.eval (ctx.recordScope (some (r.view record))) p <;> simp
  · have settled : Settled r (.node "or" (.arr (p :: q :: ps))) :=
      .node (m := .any) rfl rfl collected.settled
    have stays := resolve_or (by simp) collected.stays collected.maps
    have access : Access.ofCollected (some (p :: q :: ps)) =
        .only (.node "or" (.arr (p :: q :: ps))) := rfl
    rw [access, passes_only settled stays, Expr.Holds, Expr.eval_node_any _ rfl (by simp)]
    cases Expr.evalAny (ctx.recordScope (some (r.view record))) (p :: q :: ps) <;>
      simp [Expr.truthy]

/-! The access to a resource -/

/-- The rules of a resource that cover an action. -/
def Resource.covering (r : Resource) (action : String) : List (String × Value) :=
  (r.can.getD []).filter fun rule => covers rule.1 action

theorem Resource.covering_single {key : String} {rule : Value} (h : r.can = some [(key, rule)])
    (action : String) : r.covering action = if covers key action then [(key, rule)] else [] := by
  rw [Resource.covering, h, Option.getD_some, List.filter_singleton, Bool.cond_eq_ite]

theorem can_none (r : Resource) (action : String) (ctx : Context) :
    can r action ctx none = ruledAccess r (Text.lower action) ctx := rfl

theorem ruledAccess_uncovered {action : String} (ctx : Context) (h : r.covering action = []) :
    ruledAccess r action ctx = .ok .all := by
  unfold ruledAccess
  cases hcan : r.can with
  | none => rfl
  | some table =>
    have hfilter : (table.filter fun rule => covers rule.1 action) = [] := by
      simpa [Resource.covering, hcan] using h
    dsimp only
    rw [hfilter]

theorem ruledAccess_covered {action : String} (ctx : Context) (h : r.covering action ≠ []) :
    ruledAccess r action ctx =
      (collectRules ctx.scope r.id (r.covering action)).map Access.ofCollected := by
  unfold ruledAccess
  cases hcan : r.can with
  | none => exact absurd (by simp [Resource.covering, hcan]) h
  | some table =>
    have hfilter : (table.filter fun rule => covers rule.1 action) = r.covering action := by
      simp [Resource.covering, hcan]
    dsimp only
    rw [hfilter]
    cases hc : r.covering action with
    | nil => exact absurd hc h
    | cons rule rules => rfl

/-- One of the rules points at an empty text, or holds on the view of the record and is not kept from
deciding: it is decided without the record, or no rule before it fails to evaluate. -/
def Context.Admits (ctx : Context) (r : Resource) (rules : List (String × Value)) (record : Record) :
    Prop :=
  (∃ rule ∈ rules, ctx.Blank rule.2) ∨
    ∃ before rule after, rules = before ++ rule :: after ∧
      Expr.Holds (ctx.recordScope (some (r.view record))) rule.2 ∧
      ((∃ q, resolve ctx.scope rule.2 = .ok q ∧ q.obj? = none) ∨
        ∀ other ∈ before, ∃ w, Expr.eval (ctx.recordScope (some (r.view record))) other.2 = .ok w)

theorem Context.Blank.grants {rule : Value} (h : ctx.Blank rule) (known : Rule r ctx rule) :
    ctx.Grants rule := by
  obtain ⟨s, path, rfl, hs, hl⟩ := h
  cases known with
  | @reference _ path' hs' points =>
    cases hs.symm.trans hs'
    refine ⟨_, resolve_reference hs points, ?_⟩
    simp [Context.target, hl, Expr.makeLiteral, Value.obj?, Expr.truthy, Expr.quote]

section admits
variable {rules : List (String × Value)} (known : ∀ rule ∈ rules, Rule r ctx rule.2)
include known

theorem admits_of_grants (h : ∃ rule ∈ rules, ctx.Grants rule.2) (record : Record) :
    ctx.Admits r rules record := by
  obtain ⟨rule, hmem, q, hq, decided, ht⟩ := h
  obtain ⟨v, hv, htruthy⟩ := (known rule hmem).decided hq decided
  obtain htv | blank := htruthy.mp ht
  · obtain ⟨before, after, hsplit⟩ := List.append_of_mem hmem
    exact .inr ⟨before, rule, after, hsplit, ⟨v, hv _, htv⟩, .inl ⟨q, hq, decided⟩⟩
  · exact .inl ⟨rule, hmem, blank⟩

theorem collected_admits {ps : List Value} (collected : Collected r ctx rules ps) (record : Record) :
    Expr.evalAny (ctx.recordScope (some (r.view record))) (rules.map Prod.snd) = .ok true ↔
      ctx.Admits r rules record := by
  rw [Expr.evalAny_eq_true]
  constructor
  · rintro ⟨before, x, after, hsplit, hx, defined⟩
    obtain ⟨before, rest, rfl, rfl, hrest⟩ := List.map_eq_append_iff.mp hsplit
    obtain ⟨rule, after, rfl, rfl, rfl⟩ := List.map_eq_cons_iff.mp hrest
    exact .inr ⟨before, rule, after, rfl, hx, .inr fun other hmem =>
      defined other.2 (List.mem_map_of_mem hmem)⟩
  · rintro (⟨rule, hmem, blank⟩ | ⟨before, rule, after, rfl, ⟨w, hw, ht⟩, ⟨q, hq, decided⟩ | defined⟩)
    · exact absurd (blank.grants (known rule hmem)) (collected.refused rule hmem)
    · obtain ⟨v, hv, htruthy⟩ := (known rule (by simp)).decided hq decided
      cases (hv _).symm.trans hw
      exact absurd ⟨q, hq, decided, htruthy.mpr (.inl ht)⟩ (collected.refused rule (by simp))
    · exact ⟨before.map Prod.snd, rule.2, after.map Prod.snd, by simp, ⟨w, hw, ht⟩,
        List.forall_mem_map.mpr defined⟩

end admits

/-- Where the rules that cover an action resolve, an access is given. It lets a record pass if no rule
covers the action, or one that does admits the record. -/
theorem passes_can (e : Engine) (r : Resource) (ctx : Context) (action : String)
    (known : ∀ rule ∈ r.can.getD [], Rule r ctx rule.2)
    (resolves : ∀ rule ∈ r.covering (Text.lower action), ∃ q, resolve ctx.scope rule.2 = .ok q) :
    ∃ access, can r action ctx none = .ok access ∧ ∀ record, access.Passes e r ctx record ↔
      r.covering (Text.lower action) = [] ∨
        ctx.Admits r (r.covering (Text.lower action)) record := by
  rw [can_none]
  by_cases uncovered : r.covering (Text.lower action) = []
  · exact ⟨.all, ruledAccess_uncovered ctx uncovered, fun _ => iff_of_true trivial (.inl uncovered)⟩
  rw [ruledAccess_covered ctx uncovered]
  have rules : ∀ rule ∈ r.covering (Text.lower action), Rule r ctx rule.2 :=
    fun rule hmem => known rule (List.mem_of_mem_filter hmem)
  obtain ⟨hall, grants⟩ | ⟨ps, hps, collected⟩ := collectRules_cases r.id rules resolves
  · exact ⟨.all, by rw [hall]; rfl,
      fun record => iff_of_true trivial (.inr (admits_of_grants rules grants record))⟩
  · refine ⟨_, by rw [hps]; rfl, fun record => ?_⟩
    rw [passes_collected collected, collected_admits rules collected, or_iff_right uncovered]

theorem Shelf.eval_asks : Expr.eval
    (asked.recordScope (some (book.view [("meta", .node "title" (.str "Emma"))]))) asks =
      .ok (.bool true) := by
  have items : Expr.evalItems
      (asked.recordScope (some (book.view [("meta", .node "title" (.str "Emma"))])))
      [.str "title", .str ".request.title"] = .ok [.str "Emma", .str "Emma"] := rfl
  rw [asks, Expr.eval_node_variadic _ rfl, items]
  rfl

/-- A book passes a rule that asks for its title. -/
theorem passes_can_title :
    let emma : Record := [("meta", .node "title" (.str "Emma"))]
    ∃ access, can Shelf.book "get.resource" Shelf.asked none = .ok access ∧
      access.Passes ⟨{}, [], {}⟩ Shelf.book Shelf.asked emma := by
  intro emma
  have covering : Shelf.book.covering (Text.lower "get.resource") = [("get", Shelf.asks)] := rfl
  have known : ∀ rule ∈ Shelf.book.can.getD [], Rule Shelf.book Shelf.asked rule.2 := by
    simpa [Shelf.book] using .tree Shelf.formula_asks
  have resolves : ∀ rule ∈ Shelf.book.covering (Text.lower "get.resource"),
      ∃ q, resolve Shelf.asked.scope rule.2 = .ok q := by
    rw [covering]
    simp only [List.mem_singleton, forall_eq]
    exact ⟨_, Shelf.resolve_asks⟩
  obtain ⟨access, hcan, passes⟩ :=
    passes_can ⟨{}, [], {}⟩ Shelf.book Shelf.asked "get.resource" known resolves
  refine ⟨access, hcan, (passes emma).mpr (.inr (.inr ⟨[], _, [], covering, ?_, .inr (by simp)⟩))⟩
  exact ⟨.bool true, Shelf.eval_asks, rfl⟩

/-- A rule that points at an empty text is false on every record, and opens them all. -/
theorem can_all_of_blank :
    let r : Resource := { Shelf.book with can := some [("get", .str ".request.title")] }
    let ctx : Context := ⟨{}, .node "title" (.str "")⟩
    (∀ rule ∈ r.can.getD [], Rule r ctx rule.2) ∧
      (∀ rule ∈ r.covering (Text.lower "get.resource"), ∃ q, resolve ctx.scope rule.2 = .ok q) ∧
      can r "get.resource" ctx none = .ok .all ∧ r.covering (Text.lower "get.resource") ≠ [] ∧
      ∀ rule ∈ r.covering (Text.lower "get.resource"), ∀ record : Record,
        ¬Expr.Holds (ctx.recordScope (some (r.view record))) rule.2 := by
  intro r ctx
  have covering : r.covering (Text.lower "get.resource") = [("get", .str ".request.title")] := rfl
  have target : ctx.scope.lookup "request.title" = some (.str "") := rfl
  have points : ctx.Refers "request.title" := by
    refine ⟨by decide, by decide, fun v hv => ?_⟩
    cases target.symm.trans hv
    exact ⟨rfl, rfl⟩
  have rooted : Text.afterChar? '.' ".request.title" = some "request.title" := rfl
  have known : Rule r ctx (.str ".request.title") := .reference rooted points
  have resolved := resolve_reference rooted points
  have truthy : Expr.truthy (Expr.makeLiteral (ctx.target "request.title")) := by
    simp [Context.target, target, Expr.makeLiteral, Expr.quote, Expr.truthy]
  have granted : can r "get.resource" ctx none = .ok .all := by
    rw [can_none, ruledAccess_covered ctx (by simp [covering]), covering,
      collectRules_holds resolved rfl truthy]
    rfl
  rw [covering]
  simp only [List.mem_singleton, forall_eq]
  refine ⟨by simpa [r] using known, ⟨_, resolved⟩, granted, by simp, ?_⟩
  rintro record ⟨w, hw, ht⟩
  cases (eval_reference rooted points _).symm.trans hw
  simp [Context.target, target, Expr.truthy] at ht

end RecordGraph
