import RecordGraph.Proofs.Predicate.Formula

/-!
Resolving keeps the meaning of a formula. What is left evaluates against the record, the request and
the query as the formula did, and does not refer to the request or the query any more.
-/
namespace RecordGraph

/-- What resolving makes of a formula: one without references, with the outcome of the formula
against every record, that resolving leaves as it is. -/
structure Resolved (ctx : Context) (r : Resource) (p q : Value) : Prop where
  settled : Settled r q
  stays : resolve ctx.scope q = .ok q
  single : p.arr? = none → q.arr? = none
  folded : ∀ es, p = .obj es → q.obj? = none → ∃ b, q = .bool b
  same : ∀ record, Expr.eval (ctx.recordScope record) q = Expr.eval (ctx.recordScope record) p

/-! References -/

/-- References outside the record see the same with the record in place. -/
theorem Context.lookup_recordScope (ctx : Context) (record : Option Record) {path : String}
    (outside : (Text.pieces '.' path).head? ≠ some "fields") :
    (ctx.recordScope record).lookup path = ctx.scope.lookup path := by
  unfold Value.lookup
  cases hp : Text.pieces '.' path with
  | nil => exact absurd hp (Text.pieces_ne_nil '.' path)
  | cons first rest =>
    have hne : (first == "fields") = false := by simpa [hp] using outside
    simp [Value.descend, Value.child?, Context.recordScope, Context.scope, Entries.get?,
      List.lookup_cons, hne]

theorem Expr.evalText_rooted {s path : String} (h : Text.afterChar? '.' s = some path) (c : Value) :
    Expr.evalText c s = (c.lookup path).getD .null := by
  have hs := Text.afterChar?_eq_some.mp h
  have hne : s.isEmpty = false := by
    rw [String.isEmpty_eq_false_iff]
    rintro rfl
    simp at hs
  rw [Expr.evalText, Expr.unquoted?_of_not_isQuote hs (by decide)]
  simp [hne, Expr.get, Expr.resolvedPath, h]

theorem resolve_plain (scope : Value) {s : String} (h : Text.afterChar? '.' s = none) :
    resolve scope (.str s) = .ok (.str s) := by
  rw [resolve, h]

/-- Data without structure is a formula once its text is quoted. -/
theorem settled_makeLiteral (r : Resource) (scope : Value) {v : Value}
    (flat : v.arr? = none ∧ v.obj? = none) :
    Settled r (Expr.makeLiteral v) ∧ resolve scope (Expr.makeLiteral v) = .ok (Expr.makeLiteral v) ∧
      (Expr.makeLiteral v).arr? = none ∧ ∀ c, Expr.eval c (Expr.makeLiteral v) = .ok v := by
  cases v with
  | null => exact ⟨.null, rfl, rfl, fun _ => rfl⟩
  | bool b => exact ⟨.bool b, rfl, rfl, fun _ => rfl⟩
  | num n => exact ⟨.num n, rfl, rfl, fun _ => rfl⟩
  | str s =>
    have quoted := Expr.unquoted?_quote s
    refine ⟨.quoted quoted, resolve_plain scope (Expr.afterChar?_of_unquoted quoted), rfl, fun c => ?_⟩
    simp [Expr.makeLiteral, Expr.eval, Expr.evalText]
  | arr xs => cases flat.1
  | obj es => cases flat.2

/-- A reference that does not end with a point quotes text and leaves other values as they are. -/
theorem resolveReference_closed {scope : Value} {path : String}
    (closed : path.toList.getLast? ≠ some '.') :
    resolveReference scope path = match (scope.lookup path).getD .null with
      | .str s => .str (Expr.quote s)
      | v => v := by
  have stays : ∀ rest, path.toList.reverse ≠ '.' :: rest := by
    intro rest hrest
    apply closed
    rw [List.getLast?_eq_head?_reverse, hrest, List.head?_cons]
  unfold resolveReference
  split
  rename_i target asLiteral hcut
  split at hcut
  · exact absurd ‹_› (stays _)
  · cases hcut
    rfl

theorem resolveReference_eq {scope : Value} {path : String} (closed : path.toList.getLast? ≠ some '.')
    (flat : ((scope.lookup path).getD .null).arr? = none) :
    resolveReference scope path = Expr.makeLiteral ((scope.lookup path).getD .null) := by
  rw [resolveReference_closed closed]
  cases hv : (scope.lookup path).getD .null with
  | arr xs => simp [hv, Value.arr?] at flat
  | _ => rfl

/-- What a reference of a formula points at. -/
def Context.target (ctx : Context) (path : String) : Value := (ctx.scope.lookup path).getD .null

theorem Context.Refers.flat_target {ctx : Context} {path : String} (points : ctx.Refers path) :
    (ctx.target path).arr? = none ∧ (ctx.target path).obj? = none := by
  unfold Context.target
  cases hv : ctx.scope.lookup path with
  | none => exact ⟨rfl, rfl⟩
  | some v => exact points.flat v hv

theorem resolve_reference {ctx : Context} {s path : String} (h : Text.afterChar? '.' s = some path)
    (points : ctx.Refers path) :
    resolve ctx.scope (.str s) = .ok (Expr.makeLiteral (ctx.target path)) := by
  rw [resolve, h, Context.target, ← resolveReference_eq points.closed points.flat_target.1]

theorem eval_reference {ctx : Context} {s path : String} (h : Text.afterChar? '.' s = some path)
    (points : ctx.Refers path) (record : Option Record) :
    Expr.eval (ctx.recordScope record) (.str s) = .ok (ctx.target path) := by
  rw [Expr.eval, Expr.evalText_rooted h, ctx.lookup_recordScope record points.outside, Context.target]

/-! Nodes -/

theorem resolveItems_eq (scope : Value) (xs : List Value) :
    resolveItems scope xs = xs.mapM (resolve scope) := by
  induction xs with
  | nil => rfl
  | cons x xs ih => rw [resolveItems, ih, Except.mapM_cons]

theorem resolve_arr_eq_ok {scope q : Value} {xs : List Value} :
    resolve scope (.arr xs) = .ok q ↔
      ∃ ys, List.Forall₂ (fun x y => resolve scope x = .ok y) xs ys ∧ .arr ys = q := by
  rw [resolve, Except.map_eq_ok]
  simp only [resolveItems_eq, Except.mapM_eq_ok]

theorem resolve_node_eq_ok {scope args q : Value} {name : String} :
    resolve scope (.node name args) = .ok q ↔
      ∃ v, resolve scope args = .ok v ∧ fold scope [(name, v)] = .ok q := by
  simp [Value.node, resolve, resolveEntries, Except.bind_eq_ok]

/-- A node with resolved operands stays, or becomes the truth value it has everywhere. -/
theorem fold_cases {scope v q : Value} {name : String} (h : fold scope [(name, v)] = .ok q)
    (same : Expr.isLiteral v → ∀ c, Expr.eval c (.node name v) = Expr.eval scope (.node name v))
    (decides : ∀ w, Expr.eval scope (.node name v) = .ok w → ∃ b, w = .bool b) :
    q = .node name v ∨ ∃ b, q = .bool b ∧ ∀ c, Expr.eval c (.node name v) = .ok (.bool b) := by
  rw [fold] at h
  split at h
  · rename_i hfold
    rw [Bool.and_eq_true] at hfold
    obtain ⟨w, hw, rfl⟩ := Except.map_eq_ok.mp h
    obtain ⟨b, rfl⟩ := decides w hw
    exact .inr ⟨b, rfl, fun c => (same hfold.2 c).trans hw⟩
  · cases h
    exact .inl rfl

/-- A node over resolved operands stands for what has its outcomes, also after it is folded. -/
theorem resolved_of_fold {ctx : Context} {r : Resource} {p v q : Value} {name : String}
    (h : fold ctx.scope [(name, v)] = .ok q) (settled : Settled r (.node name v))
    (stays : resolve ctx.scope v = .ok v)
    (same : ∀ record, Expr.eval (ctx.recordScope record) (.node name v) =
      Expr.eval (ctx.recordScope record) p)
    (literal : Expr.isLiteral v →
      ∀ c, Expr.eval c (.node name v) = Expr.eval ctx.scope (.node name v))
    (decides : ∀ w, Expr.eval ctx.scope (.node name v) = .ok w → ∃ b, w = .bool b) :
    Resolved ctx r p q := by
  obtain rfl | ⟨b, rfl, hb⟩ := fold_cases h literal decides
  · have kept : resolve ctx.scope (.node name v) = .ok (.node name v) :=
      resolve_node_eq_ok.mpr ⟨v, stays, h⟩
    exact ⟨settled, kept, fun _ => rfl, fun _ _ => nofun, same⟩
  · exact ⟨.bool b, rfl, fun _ => rfl, fun _ _ _ => ⟨b, rfl⟩,
      fun record => (hb _).symm.trans (same record)⟩

theorem resolved_operands {ctx : Context} {r : Resource} {xs ys : List Value}
    (each : ∀ x ∈ xs, ∀ y, resolve ctx.scope x = .ok y → Resolved ctx r x y)
    (h : List.Forall₂ (fun x y => resolve ctx.scope x = .ok y) xs ys) :
    List.Forall₂ (Resolved ctx r) xs ys := by
  induction h with
  | nil => exact .nil
  | @cons x y xs ys hy _ ih =>
    rw [List.forall_mem_cons] at each
    exact .cons (each.1 y hy) (ih each.2)

theorem Resolved.operands {ctx : Context} {r : Resource} {xs ys : List Value}
    (h : List.Forall₂ (Resolved ctx r) xs ys) :
    (∀ y ∈ ys, Settled r y) ∧ resolve ctx.scope (.arr ys) = .ok (.arr ys) ∧
      ∀ record, List.Forall₂ (fun y x =>
        Expr.eval (ctx.recordScope record) y = Expr.eval (ctx.recordScope record) x) ys xs := by
  refine ⟨?_, ?_, fun record => h.flip.imp fun y x hxy => hxy.same record⟩
  · intro y hy
    obtain ⟨x, -, hxy⟩ := h.exists_left hy
    exact hxy.settled
  · refine resolve_arr_eq_ok.mpr ⟨ys, ?_, rfl⟩
    rw [List.forall₂_same]
    intro y hy
    obtain ⟨x, -, hxy⟩ := h.exists_left hy
    exact hxy.stays

/-- A resolved formula has no references, and the outcome the formula has. -/
theorem resolve_formula {ctx : Context} {r : Resource} {p q : Value}
    (hp : Formula r ctx.Refers p) (hq : resolve ctx.scope p = .ok q) : Resolved ctx r p q := by
  induction hp generalizing q with
  | null =>
    cases hq
    exact ⟨.null, rfl, id, nofun, fun _ => rfl⟩
  | bool b =>
    cases hq
    exact ⟨.bool b, rfl, id, nofun, fun _ => rfl⟩
  | num n =>
    cases hq
    exact ⟨.num n, rfl, id, nofun, fun _ => rfl⟩
  | quoted h =>
    have plain := resolve_plain ctx.scope (Expr.afterChar?_of_unquoted h)
    cases plain.symm.trans hq
    exact ⟨.quoted h, plain, id, nofun, fun _ => rfl⟩
  | field found plain =>
    have stays := resolve_plain ctx.scope (Text.afterChar?_of_not_mem plain.undotted)
    cases stays.symm.trans hq
    exact ⟨.field found plain, stays, id, nofun, fun _ => rfl⟩
  | reference h points =>
    cases (resolve_reference h points).symm.trans hq
    obtain ⟨settled, stays, single, same⟩ := settled_makeLiteral r ctx.scope points.flat_target
    exact ⟨settled, stays, fun _ => single, nofun,
      fun record => (same _).trans (eval_reference h points record).symm⟩
  | @list xs each ih =>
    obtain ⟨ys, hys, rfl⟩ := resolve_arr_eq_ok.mp hq
    obtain ⟨settled, stays, same⟩ := Resolved.operands (resolved_operands (fun x hx y => ih x hx) hys)
    refine ⟨.list settled, stays, nofun, nofun, fun record => ?_⟩
    rw [Expr.eval, Expr.eval, Expr.evalItems_congr (same record)]
  | @node name m xs method decides each ih =>
    have sees := Expr.Method.seesOutcomes_of_decides decides
    obtain ⟨v, hv, hfold⟩ := resolve_node_eq_ok.mp hq
    obtain ⟨ys, hys, rfl⟩ := resolve_arr_eq_ok.mp hv
    obtain ⟨settled, stays, same⟩ := Resolved.operands (resolved_operands (fun x hx y => ih x hx) hys)
    exact resolved_of_fold hfold (.node method decides settled) stays
      (fun record => Expr.eval_node_congr method sees (same record))
      (fun h c => Expr.eval_node_literal method sees h c ctx.scope)
      (fun w => Expr.eval_node_bool method decides)
  | @bare name op v method decides single operand ih =>
    obtain ⟨w, hw, hfold⟩ := resolve_node_eq_ok.mp hq
    obtain ⟨settled, stays, hsingle, -, same⟩ := ih hw
    have heval (record : Option Record) : Expr.eval (ctx.recordScope record) (.node name w) =
        Expr.eval (ctx.recordScope record) (.node name v) := by
      rw [Expr.eval_node_bare _ method (hsingle single), Expr.eval_node_bare _ method single, same]
    exact resolved_of_fold hfold (.bare method decides (hsingle single) settled) stays heval
      (fun h c => Expr.eval_node_bare_literal method (hsingle single) h c ctx.scope)
      (fun u => Expr.eval_node_bare_bool method decides (hsingle single))

end RecordGraph
