import RecordGraph.Permission.Field
import RecordGraph.Proofs.Permission.Access

/-!
The same rule for a field and for a resource. A field evaluates a tree, and takes any other rule as it
stands; a resource resolves every rule first. They agree on truth values, and on trees whose references
resolve to literals of what they point at. On a rule that is a reference they agree only where it does not
close the resource, since a field never looks at what it points at.
-/
namespace RecordGraph

/-! Trees that do not ask for a record -/

/-- The lengths of the lists of operands that a method takes. -/
def Expr.Method.Takes (m : Method) (n : Nat) : Prop :=
  match m with
  | .all | .any => n ≠ 0
  | .unary _ => n = 1
  | .binary _ => n = 2
  | _ => True

/-- Trees of methods that decide, over literals and references that satisfy `refers`. A reference that
stands as an operand without a list satisfies `lone` too. -/
inductive Guard (refers lone : String → Prop) : Value → Prop
  | null : Guard refers lone .null
  | bool (b : Bool) : Guard refers lone (.bool b)
  | num (n : Number) : Guard refers lone (.num n)
  | quoted {s inner : String} (h : Expr.unquoted? s = some inner) : Guard refers lone (.str s)
  | reference {s path : String} (h : Text.afterChar? '.' s = some path) (points : refers path) :
    Guard refers lone (.str s)
  | list {xs : List Value} (each : ∀ x ∈ xs, Guard refers lone x) : Guard refers lone (.arr xs)
  | node {name : String} {m : Expr.Method} {xs : List Value}
    (method : Expr.Method.ofName? name = some m) (decides : m.decides) (takes : m.Takes xs.length)
    (each : ∀ x ∈ xs, Guard refers lone x) : Guard refers lone (.node name (.arr xs))
  | bare {name : String} {op : Expr.Unary} {v : Value}
    (method : Expr.Method.ofName? name = some (.unary op))
    (decides : (Expr.Method.unary op).decides) (single : v.arr? = none)
    (alone : ∀ s path, v = .str s → Text.afterChar? '.' s = some path → lone path)
    (operand : Guard refers lone v) : Guard refers lone (.node name v)

/-- A reference that resolves to a literal. -/
def Context.Fixes (ctx : Context) (path : String) : Prop :=
  Expr.isLiteral (resolveReference ctx.scope path)

/-- A reference that resolves to a literal of what it points at. -/
structure Context.Stands (ctx : Context) (path : String) : Prop where
  literal : ctx.Fixes path
  same : Expr.unliteral (resolveReference ctx.scope path) = ctx.target path

/-- A reference that does not point at a list. -/
def Context.Single (ctx : Context) (path : String) : Prop := (ctx.target path).arr? = none

namespace Expr

/-- A method that decides comes to a truth value if it takes its operands, and these come to something. -/
theorem eval_node_takes {name : String} {m : Method} {c : Value} {xs : List Value}
    (hm : Method.ofName? name = some m) (decides : m.decides) (takes : m.Takes xs.length)
    (defined : ∀ x ∈ xs, ∃ v, eval c x = .ok v) : ∃ b, eval c (.node name (.arr xs)) = .ok (.bool b) := by
  have nonempty (h : xs.length ≠ 0) : xs ≠ [] := by
    rintro rfl
    exact h rfl
  choose! f hf using defined
  have counts : ∀ x ∈ xs, ∃ v, eval c (id x) = .ok v ∧ truthy v = truthy (f x) :=
    fun x hx => ⟨f x, hf x hx, rfl⟩
  cases m with
  | all =>
    rw [eval_node_all c hm (nonempty takes), ← List.map_id xs, evalAll_map c counts]
    exact ⟨_, rfl⟩
  | any =>
    rw [eval_node_any c hm (nonempty takes), ← List.map_id xs, evalAny_map c counts]
    exact ⟨_, rfl⟩
  | unary op =>
    obtain ⟨x, rfl⟩ := List.length_eq_one_iff.mp takes
    obtain ⟨b, hb⟩ := Unary.apply_bool decides name (f x)
    exact ⟨b, by simpa [Value.node, eval, hm, hf x (by simp)] using hb⟩
  | binary op =>
    obtain ⟨x, y, rfl⟩ := List.length_eq_two.mp takes
    exact ⟨_, eval_node_binary c hm (hf x (by simp)) (hf y (by simp))⟩
  | variadic op =>
    obtain ⟨b, hb⟩ := Variadic.apply_bool decides (xs.map f)
    exact ⟨b, by rw [eval_node_variadic c hm, evalItems_map hf, Except.ok_map, hb]⟩
  | get | join | literal | object => cases decides

/-- A method that decides gives a truth value if it gives anything, whatever its operands are. -/
theorem eval_decides {name : String} {m : Method} {c args w : Value}
    (hm : Method.ofName? name = some m) (decides : m.decides) (h : eval c (.node name args) = .ok w) :
    ∃ b, w = .bool b := by
  cases args with
  | arr xs => exact eval_node_bool hm decides h
  | _ =>
    cases m with
    | unary op => exact eval_node_bare_bool hm decides rfl h
    | get | join | literal | object => cases decides
    | _ => simp [Value.node, eval, hm] at h

end Expr

/-- A map among the trees is a node of a method that decides. -/
theorem Guard.method {refers lone : String → Prop} {es : List (String × Value)}
    (h : Guard refers lone (.obj es)) :
    ∃ name m args, es = [(name, args)] ∧ Expr.Method.ofName? name = some m ∧ m.decides := by
  cases h with
  | node method decides => exact ⟨_, _, _, rfl, method, decides⟩
  | bare method decides => exact ⟨_, _, _, rfl, method, decides⟩

section fixed
variable {ctx : Context} {name : String} {m : Expr.Method}

/-- Of the references that do not end with a point, those to texts stand, and those to literals in which no
text is quoted. Maps do not, nor lists with texts that refer to something. -/
theorem Context.stands_iff {path : String} (closed : path.toList.getLast? ≠ some '.') :
    ctx.Stands path ↔ (∃ s, ctx.target path = .str s) ∨
      Expr.isLiteral (ctx.target path) ∧ Expr.unliteral (ctx.target path) = ctx.target path := by
  have resolved := @resolveReference_closed ctx.scope path closed
  rw [← Context.target] at resolved
  cases hv : ctx.target path with
  | str s =>
    rw [hv] at resolved
    refine iff_of_true ⟨?_, ?_⟩ (.inl ⟨s, rfl⟩)
    · simp [Context.Fixes, resolved, Expr.isLiteral]
    · simp [resolved, Expr.unliteral, hv]
  | null | bool | num | arr | obj =>
    rw [hv] at resolved
    constructor
    · rintro ⟨literal, same⟩
      rw [Context.Fixes, resolved] at literal
      rw [resolved, hv] at same
      exact .inr ⟨literal, same⟩
    · rintro (⟨s, hs⟩ | ⟨literal, same⟩)
      · cases hs
      · exact ⟨by rwa [Context.Fixes, resolved], by rwa [resolved, hv]⟩

/-- What a tree resolves to where it is decided without a record: a literal with its outcome. -/
structure Decided (ctx : Context) (p q : Value) : Prop where
  resolves : resolve ctx.scope p = .ok q
  literal : Expr.isLiteral q
  same : Expr.eval ctx.scope q = Expr.eval ctx.scope p
  folded : ∀ es, p = .obj es → ∃ b, q = .bool b

theorem Decided.defined {p q : Value} (h : Decided ctx p q) :
    Expr.eval ctx.scope p = .ok (Expr.unliteral q) := by
  rw [← h.same, Expr.eval_of_isLiteral h.literal]

/-- An operand that is no list, nor a reference to one, resolves to none. -/
theorem Decided.single {p q : Value} (h : Decided ctx p q) (single : p.arr? = none)
    (alone : ∀ s path, p = .str s → Text.afterChar? '.' s = some path → ctx.Single path) :
    q.arr? = none := by
  cases p with
  | str s =>
    cases hs : Text.afterChar? '.' s with
    | none =>
      cases (resolve_plain ctx.scope hs).symm.trans h.resolves
      rfl
    | some path =>
      have target : Expr.unliteral q = ctx.target path := by
        have evaluated := h.defined
        rw [Expr.eval, Expr.evalText_rooted hs] at evaluated
        exact (Except.ok.inj evaluated).symm
      have flat : (Expr.unliteral q).arr? = none := by
        rw [target]
        exact alone s path rfl hs
      cases q <;> first | rfl | cases flat
  | arr xs => cases single
  | obj es =>
    obtain ⟨b, rfl⟩ := h.folded es rfl
    rfl
  | null | bool | num =>
    cases h.resolves
    rfl

theorem decided_list {xs : List Value} (each : ∀ x ∈ xs, ∃ y, Decided ctx x y) :
    ∃ ys, List.Forall₂ (Decided ctx) xs ys ∧ Decided ctx (.arr xs) (.arr ys) := by
  choose! f hf using each
  have all : List.Forall₂ (Decided ctx) xs (xs.map f) := by
    rw [List.forall₂_map_right_iff, List.forall₂_same]
    exact hf
  refine ⟨_, all, resolve_arr_eq_ok.mpr ⟨_, all.imp fun _ _ h => h.resolves, rfl⟩, ?_, ?_, nofun⟩
  · rw [Expr.isLiteral, Expr.allLiteral_eq, List.all_eq_true, List.forall_mem_map]
    exact fun x hx => (hf x hx).literal
  · rw [Expr.eval, Expr.eval, Expr.evalItems_congr (all.flip.imp fun _ _ h => h.same)]

/-- A node over literals folds to the truth value that it comes to. -/
theorem decided_node {args v : Value} {b : Bool} (method : Expr.Method.ofName? name = some m)
    (operands : resolve ctx.scope args = .ok v) (literal : Expr.isLiteral v)
    (same : Expr.eval ctx.scope (.node name v) = Expr.eval ctx.scope (.node name args))
    (value : Expr.eval ctx.scope (.node name args) = .ok (.bool b)) :
    Decided ctx (.node name args) (.bool b) := by
  have folds : fold ctx.scope [(name, v)] = .ok (.bool b) := by
    have hname : Expr.isMethod name := by simp [Expr.isMethod, method]
    rw [fold, if_pos (by simp [hname, literal])]
    exact congrArg (Except.map Expr.makeLiteral) (same.trans value)
  exact ⟨resolve_node_eq_ok.mpr ⟨v, operands, folds⟩, rfl, value.symm, fun _ _ => ⟨b, rfl⟩⟩

/-- A tree whose references resolve to literals of what they point at is decided. -/
theorem Guard.decided {p : Value} (h : Guard ctx.Stands ctx.Single p) : ∃ q, Decided ctx p q := by
  induction h with
  | null => exact ⟨.null, rfl, rfl, rfl, nofun⟩
  | bool b => exact ⟨.bool b, rfl, rfl, rfl, nofun⟩
  | num n => exact ⟨.num n, rfl, rfl, rfl, nofun⟩
  | @quoted s inner h =>
    refine ⟨.str s, resolve_plain ctx.scope (Expr.afterChar?_of_unquoted h), ?_, rfl, nofun⟩
    simp [Expr.isLiteral, h]
  | @reference s path h points =>
    refine ⟨resolveReference ctx.scope path, by rw [resolve, h], points.literal, ?_, nofun⟩
    rw [Expr.eval_of_isLiteral points.literal, points.same, Expr.eval, Expr.evalText_rooted h,
      Context.target]
  | list each ih =>
    obtain ⟨ys, -, decided⟩ := decided_list ih
    exact ⟨_, decided⟩
  | @node name m xs method decides takes each ih =>
    obtain ⟨ys, all, operands⟩ := decided_list ih
    have same := Expr.eval_node_congr method (Expr.Method.seesOutcomes_of_decides decides)
      (all.flip.imp fun _ _ h => h.same)
    obtain ⟨b, hb⟩ := Expr.eval_node_takes method decides takes fun x hx =>
      (ih x hx).imp' Expr.unliteral fun _ h => h.defined
    exact ⟨_, decided_node method operands.resolves operands.literal same hb⟩
  | @bare name op v method decides single alone operand ih =>
    obtain ⟨w, hw⟩ := ih
    have same : Expr.eval ctx.scope (.node name w) = Expr.eval ctx.scope (.node name v) := by
      rw [Expr.eval_node_bare _ method (hw.single single alone), Expr.eval_node_bare _ method single,
        hw.same]
    obtain ⟨b, hb⟩ := Expr.Unary.apply_bool decides name (Expr.unliteral w)
    have value : Expr.eval ctx.scope (.node name v) = .ok (.bool b) := by
      rw [Expr.eval_node_bare _ method single, hw.defined, Except.ok_bind, hb]
    exact ⟨_, decided_node method hw.resolves hw.literal same value⟩

/-- A node that folds has literals for operands. -/
theorem isLiteral_of_fold {v q : Value} (h : fold ctx.scope [(name, v)] = .ok q)
    (literal : Expr.isLiteral q) : Expr.isLiteral v := by
  by_contra other
  rw [fold, if_neg (by simp [other])] at h
  cases h
  cases literal

/-- Only a tree whose references resolve to literals resolves to a literal. -/
theorem Guard.fixes {refers lone : String → Prop} {p q : Value} (h : Guard refers lone p)
    (hq : resolve ctx.scope p = .ok q) (literal : Expr.isLiteral q) : Guard ctx.Fixes lone p := by
  have items {xs ys : List Value} (all : List.Forall₂ (fun x y => resolve ctx.scope x = .ok y) xs ys)
      (literal : Expr.isLiteral (.arr ys))
      (ih : ∀ x ∈ xs, ∀ y, resolve ctx.scope x = .ok y → Expr.isLiteral y → Guard ctx.Fixes lone x) :
      ∀ x ∈ xs, Guard ctx.Fixes lone x := by
    rw [Expr.isLiteral, Expr.allLiteral_eq, List.all_eq_true] at literal
    intro x hx
    obtain ⟨y, hy, hxy⟩ := all.flip.exists_left hx
    exact ih x hx y hxy (literal y hy)
  induction h generalizing q with
  | null => exact .null
  | bool b => exact .bool b
  | num n => exact .num n
  | quoted h => exact .quoted h
  | @reference s path h points =>
    rw [resolve, h] at hq
    cases hq
    exact .reference h literal
  | list each ih =>
    obtain ⟨ys, all, rfl⟩ := resolve_arr_eq_ok.mp hq
    exact .list (items all literal fun x hx y => ih x hx)
  | node method decides takes each ih =>
    obtain ⟨v, hv, hfold⟩ := resolve_node_eq_ok.mp hq
    obtain ⟨ys, all, rfl⟩ := resolve_arr_eq_ok.mp hv
    exact .node method decides takes
      (items all (isLiteral_of_fold hfold literal) fun x hx y => ih x hx)
  | bare method decides single alone operand ih =>
    obtain ⟨v, hv, hfold⟩ := resolve_node_eq_ok.mp hq
    exact .bare method decides single alone (ih hv (isLiteral_of_fold hfold literal))

/-- A method that decides comes to a truth value, or its node is left over. -/
theorem fold_decides {v q : Value} (method : Expr.Method.ofName? name = some m) (decides : m.decides)
    (h : fold ctx.scope [(name, v)] = .ok q) : q = .node name v ∨ ∃ b, q = .bool b := by
  rw [fold] at h
  split at h
  · obtain ⟨w, hw, rfl⟩ := Except.map_eq_ok.mp h
    obtain ⟨b, rfl⟩ := Expr.eval_decides method decides hw
    exact .inr ⟨b, rfl⟩
  · cases h
    exact .inl rfl

/-- A tree with a reference that does not resolve to a literal is left over as a tree. -/
theorem Guard.left {refers lone : String → Prop} {es : List (String × Value)} {q : Value}
    (h : Guard refers lone (.obj es)) (loose : ¬Guard ctx.Fixes lone (.obj es))
    (hq : resolve ctx.scope (.obj es) = .ok q) : q.obj? ≠ none := by
  obtain ⟨name, m, args, rfl, method, decides⟩ := h.method
  obtain ⟨v, -, hfold⟩ := resolve_node_eq_ok.mp hq
  obtain rfl | ⟨b, rfl⟩ := fold_decides method decides hfold
  · nofun
  · exact absurd (h.fixes hq rfl) loose

end fixed

/-! The same rule on both sides -/

/-- A field with a rule and a resource with a rule both answer for reading, and the field may be taken
exactly if the resource is not denied. -/
def Agree (f : Field) (r : Resource) (ctx : Context) (settings : Settings) : Prop :=
  ∃ taken access, canTakeField f "get" ctx settings = .ok taken ∧
    can r "get.resource" ctx none = .ok access ∧ (taken ↔ access.isDenied = false)

section rule
variable {f : Field} {r : Resource} {ctx : Context} {settings : Settings} {rule : Value}

theorem canTakeField_single (table : f.can = some [("get", rule)])
    (defaults : settings.fieldPermissions = []) (available : isAvailable f ctx = .ok true) :
    canTakeField f "get" ctx settings = ruleAllows ctx rule := by
  have single : permissionTable f settings = [("get", rule)] := by
    rw [permissionTable, table, defaults]
    rfl
  rw [canTakeField, available, single]
  rfl

theorem can_single (table : r.can = some [("get", rule)]) : can r "get.resource" ctx none =
    (collectRules ctx.scope r.id [("get", rule)]).map Access.ofCollected := by
  have covered : covers "get" (Text.lower "get.resource") = true := rfl
  have covering : r.covering (Text.lower "get.resource") = [("get", rule)] := by
    rw [Resource.covering_single table, covered, if_pos rfl]
  rw [can_none, ruledAccess_covered ctx (by simp [covering]), covering]

theorem resolves_of_can {access : Access} (table : r.can = some [("get", rule)])
    (h : can r "get.resource" ctx none = .ok access) : ∃ q, resolve ctx.scope rule = .ok q := by
  rw [can_single table, collectRules] at h
  cases hq : resolve ctx.scope rule with
  | error e =>
    rw [hq] at h
    cases h
  | ok q => exact ⟨q, rfl⟩

section resolved
variable {q : Value} (table : r.can = some [("get", rule)]) (hq : resolve ctx.scope rule = .ok q)
include table hq

theorem can_decided (decided : q.obj? = none) :
    can r "get.resource" ctx none = .ok (if Expr.truthy q then .all else .denied) := by
  rw [can_single table]
  split
  · rw [collectRules_holds hq decided ‹_›]
    rfl
  · rw [collectRules_fails hq decided ‹_›]
    rfl

theorem can_left (map : q.obj? ≠ none) : can r "get.resource" ctx none = .ok (.only q) := by
  rw [can_single table, collectRules_depends hq map]
  rfl

end resolved

theorem agree_iff {taken : Bool} {access : Access} (field : canTakeField f "get" ctx settings = .ok taken)
    (resource : can r "get.resource" ctx none = .ok access) :
    Agree f r ctx settings ↔ (taken ↔ access.isDenied = false) := by
  simp [Agree, field, resource]

section same
variable (field : canTakeField f "get" ctx settings = ruleAllows ctx rule)
  (table : r.can = some [("get", rule)])
include field table

/-- A rule that both sides come to the same truth value for. -/
theorem agree_of_decided {q : Value} {b : Bool} (allows : ruleAllows ctx rule = .ok b)
    (hq : resolve ctx.scope rule = .ok q) (decided : q.obj? = none) (same : Expr.truthy q = b) :
    Agree f r ctx settings := by
  refine (agree_iff (field.trans allows) (can_decided table hq decided)).mpr ?_
  rw [same]
  cases b <;> simp [Access.isDenied]

theorem Guard.agree {es : List (String × Value)} (h : rule = .obj es)
    (guard : Guard ctx.Stands ctx.Single rule) : Agree f r ctx settings := by
  obtain ⟨q, decided⟩ := guard.decided
  obtain ⟨b, rfl⟩ := decided.folded es h
  have allows : ruleAllows ctx rule = .ok b := by
    rw [h, ruleAllows, ← h, decided.defined]
    rfl
  exact agree_of_decided field table allows decided.resolves rfl rfl

/-- A field takes a reference for true, whatever it points at. -/
theorem agree_reference_iff {s path : String} (h : rule = .str s)
    (hs : Text.afterChar? '.' s = some path) :
    let q := resolveReference ctx.scope path
    Agree f r ctx settings ↔ q.obj? ≠ none ∨ Expr.truthy q := by
  intro q
  have resolved : resolve ctx.scope rule = .ok q := by rw [h, resolve, hs]
  have filled : s.isEmpty = false := by
    rw [String.isEmpty_eq_false_iff]
    rintro rfl
    cases hs
  have allows : ruleAllows ctx rule = .ok true := by
    rw [h]
    change Except.ok (!s.isEmpty) = _
    rw [filled]
    rfl
  by_cases decided : q.obj? = none
  · rw [agree_iff (field.trans allows) (can_decided table resolved decided)]
    cases ht : Expr.truthy q <;> simp [decided, Access.isDenied]
  · rw [agree_iff (field.trans allows) (can_left table resolved decided)]
    simp [decided, Access.isDenied]

omit field in
/-- A resource never denies a tree that is left over. -/
theorem Guard.agree_iff_of_loose {refers lone : String → Prop} {es : List (String × Value)}
    (h : rule = .obj es) (guard : Guard refers lone rule) (loose : ¬Guard ctx.Fixes lone rule) :
    Agree f r ctx settings ↔
      (∃ q, resolve ctx.scope rule = .ok q) ∧ canTakeField f "get" ctx settings = .ok true := by
  subst h
  constructor
  · rintro ⟨taken, access, htaken, haccess, same⟩
    obtain ⟨q, hq⟩ := resolves_of_can table haccess
    cases (can_left table hq (guard.left loose hq)).symm.trans haccess
    exact ⟨⟨q, hq⟩, by rw [htaken, same.mpr rfl]⟩
  · rintro ⟨⟨q, hq⟩, htaken⟩
    exact (agree_iff htaken (can_left table hq (guard.left loose hq))).mpr (by simp [Access.isDenied])

end same

/-- A field and a resource with the same rule for reading agree if the rule is a truth value, or a tree whose
references resolve to literals of what they point at. If it is a reference, they agree exactly if it
resolves to a map or to what counts as true. If it is a tree with a reference that does not resolve to a
literal, they agree exactly if it resolves and the field may be taken. -/
theorem agree_on_rule (fields : f.can = some [("get", rule)]) (resources : r.can = some [("get", rule)])
    (defaults : settings.fieldPermissions = []) (available : isAvailable f ctx = .ok true) :
    (∀ b, rule = .bool b → Agree f r ctx settings) ∧
    (∀ es, rule = .obj es → Guard ctx.Stands ctx.Single rule → Agree f r ctx settings) ∧
    (∀ s path, rule = .str s → Text.afterChar? '.' s = some path →
      let q := resolveReference ctx.scope path
      Agree f r ctx settings ↔ q.obj? ≠ none ∨ Expr.truthy q) ∧
    ∀ es, rule = .obj es → Guard (fun _ => True) (fun _ => True) rule →
      ¬Guard ctx.Fixes (fun _ => True) rule → (Agree f r ctx settings ↔
        (∃ q, resolve ctx.scope rule = .ok q) ∧ canTakeField f "get" ctx settings = .ok true) := by
  have field := canTakeField_single fields defaults available
  refine ⟨?_, fun es h guard => guard.agree field resources h,
    fun s path h hs => agree_reference_iff field resources h hs,
    fun es h guard loose => guard.agree_iff_of_loose resources h loose⟩
  rintro b rfl
  exact agree_of_decided field resources rfl rfl rfl rfl

end rule

namespace Shelf

/-- Members see the shelf, unless they are banned. -/
def members : Value := .node "and" (.arr [.node "not" (.str ".request.banned"),
  .node "in" (.arr [.str ".request.id", .str ".request.members"])])

end Shelf

/-- A member who is not banned may see the shelf and the title alike. -/
theorem agree_on_rule_members :
    let f : Field := { Shelf.title with can := some [("get", Shelf.members)] }
    let r : Resource := { Shelf.book with can := some [("get", Shelf.members)] }
    let ctx : Context := ⟨{}, .obj [("id", .nat 7), ("members", .arr [.nat 7, .nat 9])]⟩
    Guard ctx.Stands ctx.Single Shelf.members ∧ Agree f r ctx {} ∧
      (canTakeField f "get" ctx {}).toOption = some true := by
  intro f r ctx
  have banned : ctx.Stands "request.banned" := ⟨rfl, rfl⟩
  have id : ctx.Stands "request.id" := ⟨rfl, rfl⟩
  have members : ctx.Stands "request.members" := ⟨rfl, rfl⟩
  have guard : Guard ctx.Stands ctx.Single Shelf.members := by
    have not_decides : (Expr.Method.unary .not).decides := rfl
    refine .node (m := .all) rfl rfl (Nat.succ_ne_zero 1) ?_
    simp only [List.forall_mem_cons]
    refine ⟨.bare rfl not_decides rfl ?_ (.reference rfl banned), ?_, by simp⟩
    · intro s path hs hpath
      cases hs
      cases hpath
      rfl
    · refine .node (m := .binary .member) rfl rfl rfl ?_
      simp only [List.forall_mem_cons]
      exact ⟨.reference rfl id, .reference rfl members, by simp⟩
  exact ⟨guard, (agree_on_rule rfl rfl rfl rfl).2.1 _ rfl guard, by decide +kernel⟩

/-- A rule that points at false closes a resource, and leaves a field open. -/
theorem field_open_resource_denied :
    let rule : Value := .str ".request.staff"
    let f : Field := { Shelf.title with can := some [("get", rule)] }
    let r : Resource := { Shelf.book with can := some [("get", rule)] }
    let ctx : Context := ⟨{}, .node "staff" (.bool false)⟩
    can r "get.resource" ctx none = .ok .denied ∧ canTakeField f "get" ctx {} = .ok true ∧
      ¬Agree f r ctx {} := by
  intro rule f r ctx
  have resource : can r "get.resource" ctx none = .ok .denied := rfl
  have field : canTakeField f "get" ctx {} = .ok true := rfl
  refine ⟨resource, field, ?_⟩
  rw [agree_iff field resource]
  simp [Access.isDenied]

end RecordGraph
