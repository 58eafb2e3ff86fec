import RecordGraph.Expr.Eval
import RecordGraph.Proofs.Outcome

/-!
How nodes evaluate. Methods other than `get`, `join`, `literal` and `object` see their operands only
through the outcomes of these, so operands with the same outcomes may replace each other, also where
they are evaluated against different contexts. Of these, the ones that decide give truth values only.
-/
namespace RecordGraph.Expr

/-- The methods that see no more of a list of operands than what each evaluates to. -/
def Method.seesOutcomes : Method → Bool
  | .all | .any | .unary _ | .binary _ | .variadic _ => true
  | _ => false

section operands
variable {name : String} (c : Value)

theorem eval_node_all (hm : Method.ofName? name = some .all) {xs : List Value} (some : xs ≠ []) :
    eval c (.node name (.arr xs)) = (evalAll c xs).map .bool := by
  cases xs with
  | nil => exact absurd rfl some
  | cons x xs => simp [Value.node, eval, hm]

theorem eval_node_any (hm : Method.ofName? name = some .any) {xs : List Value} (some : xs ≠ []) :
    eval c (.node name (.arr xs)) = (evalAny c xs).map .bool := by
  cases xs with
  | nil => exact absurd rfl some
  | cons x xs => simp [Value.node, eval, hm]

theorem eval_node_get (hm : Method.ofName? name = some .get) {args v : Value} :
    eval c (.node name args) = .ok v ↔
      ∃ path, pathOperand args = some path ∧ get ((unquoted? path).getD path) c = v := by
  rw [Value.node, eval.eq_def]
  simp only [hm]
  cases pathOperand args <;> simp

theorem eval_node_binary {op : Binary} (hm : Method.ofName? name = some (.binary op))
    {x y v w : Value} (hx : eval c x = .ok v) (hy : eval c y = .ok w) :
    eval c (.node name (.arr [x, y])) = .ok (.bool (op.apply v w)) := by
  simp [Value.node, eval, hm, hx, hy]

theorem eval_node_variadic {op : Variadic} (hm : Method.ofName? name = some (.variadic op))
    (xs : List Value) : eval c (.node name (.arr xs)) = (evalItems c xs).map op.apply := by
  rw [Value.node, eval.eq_def]
  simp only [hm]

/-- An operand of a unary method may stand without a list, unless it is a list itself. -/
theorem eval_node_bare {op : Unary} (hm : Method.ofName? name = some (.unary op)) {v : Value}
    (h : v.arr? = none) : eval c (.node name v) = (eval c v).bind (op.apply name) := by
  cases v with
  | arr xs => cases h
  | _ => simp [Value.node, eval, hm]

/-- Operands with known truth values, all of them without failure. -/
theorem evalAll_map {α : Type} {f : α → Value} {holds : α → Bool} {xs : List α}
    (h : ∀ x ∈ xs, ∃ v, eval c (f x) = .ok v ∧ truthy v = holds x) :
    evalAll c (xs.map f) = .ok (xs.all holds) := by
  induction xs with
  | nil => rfl
  | cons x xs ih =>
    rw [List.forall_mem_cons] at h
    obtain ⟨⟨v, hv, hx⟩, h⟩ := h
    rw [List.map_cons, evalAll, hv, Except.ok_bind, ih h, hx, List.all_cons]
    cases holds x <;> rfl

theorem evalAny_map {α : Type} {f : α → Value} {holds : α → Bool} {xs : List α}
    (h : ∀ x ∈ xs, ∃ v, eval c (f x) = .ok v ∧ truthy v = holds x) :
    evalAny c (xs.map f) = .ok (xs.any holds) := by
  induction xs with
  | nil => rfl
  | cons x xs ih =>
    rw [List.forall_mem_cons] at h
    obtain ⟨⟨v, hv, hx⟩, h⟩ := h
    rw [List.map_cons, evalAny, hv, Except.ok_bind, ih h, hx, List.any_cons]
    cases holds x <;> rfl

end operands

/-- A list evaluates to the values of its items. -/
theorem evalItems_eq_ok {c : Value} {xs vs : List Value} :
    evalItems c xs = .ok vs ↔ List.Forall₂ (fun x v => eval c x = .ok v) xs vs := by
  have hmap (xs : List Value) : evalItems c xs = xs.mapM (eval c) := by
    induction xs with
    | nil => rfl
    | cons x xs ih => rw [evalItems, ih, Except.mapM_cons]
  rw [hmap, Except.mapM_eq_ok]

/-- An expression evaluates to something that counts as true. -/
def Holds (c v : Value) : Prop := ∃ w, eval c v = .ok w ∧ truthy w

theorem evalAll_eq_true {c : Value} {xs : List Value} :
    evalAll c xs = .ok true ↔ ∀ x ∈ xs, Holds c x := by
  induction xs with
  | nil => simp [evalAll]
  | cons x xs ih =>
    rw [evalAll, Except.bind_eq_ok, List.forall_mem_cons, ← ih]
    constructor
    · rintro ⟨w, hw, h⟩
      by_cases ht : truthy w
      · exact ⟨⟨w, hw, ht⟩, by rwa [if_pos ht] at h⟩
      · rw [if_neg ht] at h
        cases h
    · rintro ⟨⟨w, hw, ht⟩, h⟩
      exact ⟨w, hw, by rwa [if_pos ht]⟩

/-- Some operand holds, and those before it can be evaluated. -/
theorem evalAny_eq_true {c : Value} {xs : List Value} :
    evalAny c xs = .ok true ↔
      ∃ before x after, xs = before ++ x :: after ∧ Holds c x ∧
        ∀ y ∈ before, ∃ w, eval c y = .ok w := by
  induction xs with
  | nil => simp [evalAny]
  | cons x xs ih =>
    rw [evalAny, Except.bind_eq_ok]
    constructor
    · rintro ⟨w, hw, h⟩
      by_cases ht : truthy w
      · exact ⟨[], x, xs, rfl, ⟨w, hw, ht⟩, by simp⟩
      · rw [if_neg ht] at h
        obtain ⟨before, y, after, rfl, hy, defined⟩ := ih.mp h
        exact ⟨x :: before, y, after, rfl, hy, List.forall_mem_cons.mpr ⟨⟨w, hw⟩, defined⟩⟩
    · rintro ⟨before, y, after, hsplit, hy, defined⟩
      rcases before with _ | ⟨z, before⟩
      · obtain ⟨rfl, rfl⟩ := List.cons.inj hsplit
        obtain ⟨w, hw, ht⟩ := hy
        exact ⟨w, hw, if_pos ht⟩
      · obtain ⟨rfl, rfl⟩ := List.cons.inj hsplit
        rw [List.forall_mem_cons] at defined
        obtain ⟨⟨w, hw⟩, defined⟩ := defined
        refine ⟨w, hw, ?_⟩
        split
        · rfl
        · exact ih.mpr ⟨before, y, after, rfl, hy, defined⟩

section congruence
variable {c d : Value} {xs ys : List Value}

theorem evalItems_congr (h : List.Forall₂ (fun x y => eval c x = eval d y) xs ys) :
    evalItems c xs = evalItems d ys := by
  induction h with
  | nil => rfl
  | cons h _ ih => rw [evalItems, evalItems, h, ih]

theorem evalAll_congr (h : List.Forall₂ (fun x y => eval c x = eval d y) xs ys) :
    evalAll c xs = evalAll d ys := by
  induction h with
  | nil => rfl
  | cons h _ ih => rw [evalAll, evalAll, h, ih]

theorem evalAny_congr (h : List.Forall₂ (fun x y => eval c x = eval d y) xs ys) :
    evalAny c xs = evalAny d ys := by
  induction h with
  | nil => rfl
  | cons h _ ih => rw [evalAny, evalAny, h, ih]

/-- Operands with the same outcomes give the same outcome of their node. -/
theorem eval_node_congr {name : String} {m : Method} (hm : Method.ofName? name = some m)
    (hs : m.seesOutcomes) (h : List.Forall₂ (fun x y => eval c x = eval d y) xs ys) :
    eval c (.node name (.arr xs)) = eval d (.node name (.arr ys)) := by
  cases m with
  | all =>
    cases h with
    | nil => simp [Value.node, eval, hm]
    | cons hx h =>
      rw [eval_node_all c hm (by simp), eval_node_all d hm (by simp), evalAll_congr (.cons hx h)]
  | any =>
    cases h with
    | nil => simp [Value.node, eval, hm]
    | cons hx h =>
      rw [eval_node_any c hm (by simp), eval_node_any d hm (by simp), evalAny_congr (.cons hx h)]
  | unary op =>
    rcases h with _ | ⟨hx, _ | ⟨hy, h⟩⟩
    · simp [Value.node, eval, hm]
    · simp [Value.node, eval, hm, hx]
    · simp [Value.node, eval, hm]
  | binary op =>
    rcases h with _ | ⟨hx, _ | ⟨hy, _ | ⟨hz, h⟩⟩⟩
    · simp [Value.node, eval, hm]
    · simp [Value.node, eval, hm]
    · simp [Value.node, eval, hm, hx, hy]
    · simp [Value.node, eval, hm]
  | variadic op =>
    rw [eval_node_variadic c hm, eval_node_variadic d hm, evalItems_congr h]
  | get | join | literal | object => cases hs

end congruence

/-- The methods that come to a truth value and see only what their operands evaluate to. -/
def Method.decides : Method → Bool
  | .all | .any | .binary _ => true
  | .unary op => op != .count
  | .variadic op => op == .equal || op == .notEqual
  | _ => false

theorem Method.seesOutcomes_of_decides {m : Method} (h : m.decides) : m.seesOutcomes := by
  cases m <;> first | rfl | cases h

theorem Unary.apply_bool {op : Unary} (h : (Method.unary op).decides) (name : String) (v : Value) :
    ∃ b, op.apply name v = .ok (.bool b) := by
  cases op with
  | count => cases h
  | _ => exact ⟨_, rfl⟩

theorem Variadic.apply_bool {op : Variadic} (h : (Method.variadic op).decides) (vs : List Value) :
    ∃ b, op.apply vs = .bool b := by
  cases op with
  | equal | notEqual => exact ⟨_, rfl⟩
  | least | greatest => cases h

section node
variable {name : String} {m : Method} {c : Value}

/-- A method that decides gives a truth value if it gives anything. -/
theorem eval_node_bool (hm : Method.ofName? name = some m) (hd : m.decides) {xs : List Value}
    {w : Value} (h : eval c (.node name (.arr xs)) = .ok w) : ∃ b, w = .bool b := by
  cases m with
  | all =>
    cases xs with
    | nil => simp [Value.node, eval, hm] at h
    | cons x xs =>
      rw [eval_node_all c hm (by simp)] at h
      obtain ⟨b, -, rfl⟩ := Except.map_eq_ok.mp h
      exact ⟨b, rfl⟩
  | any =>
    cases xs with
    | nil => simp [Value.node, eval, hm] at h
    | cons x xs =>
      rw [eval_node_any c hm (by simp)] at h
      obtain ⟨b, -, rfl⟩ := Except.map_eq_ok.mp h
      exact ⟨b, rfl⟩
  | unary op =>
    rcases xs with _ | ⟨x, _ | ⟨y, xs⟩⟩ <;> simp only [Value.node, eval, hm, reduceCtorEq] at h
    obtain ⟨v, -, hv⟩ := Except.bind_eq_ok.mp h
    obtain ⟨b, hb⟩ := Unary.apply_bool hd name v
    exact ⟨b, by simpa [hb, eq_comm] using hv⟩
  | binary op =>
    rcases xs with _ | ⟨x, _ | ⟨y, _ | ⟨z, xs⟩⟩⟩ <;> simp [Value.node, eval, hm] at h
    obtain ⟨v, -, h⟩ := Except.bind_eq_ok.mp h
    obtain ⟨b, -, rfl⟩ := Except.map_eq_ok.mp h
    exact ⟨_, rfl⟩
  | variadic op =>
    rw [eval_node_variadic c hm] at h
    obtain ⟨vs, -, rfl⟩ := Except.map_eq_ok.mp h
    exact Variadic.apply_bool hd vs
  | get | join | literal | object => cases hd

theorem eval_node_bare_bool {op : Unary} (hm : Method.ofName? name = some (.unary op))
    (hd : (Method.unary op).decides) {v w : Value} (hv : v.arr? = none)
    (h : eval c (.node name v) = .ok w) : ∃ b, w = .bool b := by
  rw [eval_node_bare c hm hv] at h
  obtain ⟨u, -, h⟩ := Except.bind_eq_ok.mp h
  obtain ⟨b, hb⟩ := Unary.apply_bool hd name u
  exact ⟨b, by simpa [hb, eq_comm] using h⟩

end node

end RecordGraph.Expr
