import RecordGraph.Proofs.Expr.Eval

/-!
`and`, `or` and `not`. The first operand with the truth value that its method waits for decides; what
stands behind it is not looked at, and what fails before it fails the node. `not` turns the one method
into the other, with the same failures.
-/
namespace RecordGraph.Expr

/-- The method that waits for an operand with the given truth value. -/
def connective : Bool → String
  | true => "or"
  | false => "and"

/-- The opposite of an expression. -/
def negation (x : Value) : Value := .node "not" (.arr [x])

/-- An expression evaluates to something with the given truth value. -/
def ComesTo (c : Value) (truth : Bool) (x : Value) : Prop :=
  ∃ v, eval c x = .ok v ∧ truthy v = truth

/-- The outcome of operands that are evaluated until one has the given truth value. -/
def evalUntil (c : Value) : Bool → List Value → Except EvalError Bool
  | true => evalAny c
  | false => evalAll c

section operands
variable {c : Value} {truth : Bool} {xs : List Value}

theorem evalUntil_nil (c : Value) (truth : Bool) : evalUntil c truth [] = .ok !truth := by
  cases truth <;> rfl

theorem evalUntil_cons (c : Value) (truth : Bool) (x : Value) (xs : List Value) :
    evalUntil c truth (x :: xs) = (eval c x).bind fun v =>
      if truthy v = truth then .ok truth else evalUntil c truth xs := by
  cases truth with
  | true => rfl
  | false =>
    rw [evalUntil, evalAll]
    congr 1
    funext v
    cases truthy v <;> rfl

theorem eval_connective (given : xs ≠ []) :
    eval c (.node (connective truth) (.arr xs)) = (evalUntil c truth xs).map .bool := by
  cases truth with
  | true => exact eval_node_any c rfl given
  | false => exact eval_node_all c rfl given

theorem eval_negation (c x : Value) :
    eval c (negation x) = (eval c x).map fun v => .bool !truthy v := by
  have hm : Method.ofName? "not" = some (.unary .not) := rfl
  rw [negation, Value.node, eval.eq_def]
  simp only [hm]
  cases eval c x <;> rfl

/-- An operand without the truth value that is waited for leaves the decision to the next ones. -/
theorem evalUntil_pass {x : Value} (pass : ComesTo c (!truth) x) (xs : List Value) :
    evalUntil c truth (x :: xs) = evalUntil c truth xs := by
  obtain ⟨v, hv, htruth⟩ := pass
  rw [evalUntil_cons, hv, Except.ok_bind, if_neg]
  rw [htruth]
  cases truth <;> decide

theorem evalUntil_passed {before : List Value} (passed : ∀ y ∈ before, ComesTo c (!truth) y)
    (xs : List Value) : evalUntil c truth (before ++ xs) = evalUntil c truth xs := by
  induction before with
  | nil => rfl
  | cons y before ih =>
    rw [List.forall_mem_cons] at passed
    rw [List.cons_append, evalUntil_pass passed.1, ih passed.2]

theorem evalUntil_all (passed : ∀ x ∈ xs, ComesTo c (!truth) x) : evalUntil c truth xs = .ok !truth := by
  rw [← evalUntil_nil c truth, ← evalUntil_passed passed [], List.append_nil]

theorem evalUntil_decided {x : Value} (decides : ComesTo c truth x) (after : List Value) :
    evalUntil c truth (x :: after) = .ok truth := by
  obtain ⟨v, hv, htruth⟩ := decides
  rw [evalUntil_cons, hv, Except.ok_bind, if_pos htruth]

theorem evalUntil_failed {x : Value} {e : EvalError} (fails : eval c x = .error e)
    (after : List Value) : evalUntil c truth (x :: after) = .error e := by
  rw [evalUntil_cons, fails, Except.error_bind]

/-- Behind an operand that decides nothing is looked at, whatever stands before it. -/
theorem evalUntil_cut {x : Value} (decides : ComesTo c truth x) (before after : List Value) :
    evalUntil c truth (before ++ x :: after) = evalUntil c truth (before ++ [x]) := by
  induction before with
  | nil =>
    rw [List.nil_append, List.nil_append, evalUntil_decided decides, evalUntil_decided decides]
  | cons y before ih => rw [List.cons_append, List.cons_append, evalUntil_cons, evalUntil_cons, ih]

/-- Either all operands leave the decision to the next, or there is a first that does not. -/
theorem exists_first (c : Value) (truth : Bool) (xs : List Value) :
    (∀ x ∈ xs, ComesTo c (!truth) x) ∨
      ∃ before x after, xs = before ++ x :: after ∧ (∀ y ∈ before, ComesTo c (!truth) y) ∧
        (ComesTo c truth x ∨ ∃ e, eval c x = .error e) := by
  induction xs with
  | nil => exact .inl (by simp)
  | cons x xs ih =>
    cases hx : eval c x with
    | error e => exact .inr ⟨[], x, xs, rfl, by simp, .inr ⟨e, hx⟩⟩
    | ok v =>
      by_cases htruth : truthy v = truth
      · exact .inr ⟨[], x, xs, rfl, by simp, .inl ⟨v, hx, htruth⟩⟩
      · have pass : ComesTo c (!truth) x := ⟨v, hx, by rw [Bool.eq_not]; exact htruth⟩
        rcases ih with passed | ⟨before, y, after, rfl, passed, stops⟩
        · exact .inl (List.forall_mem_cons.mpr ⟨pass, passed⟩)
        · exact .inr ⟨x :: before, y, after, rfl, List.forall_mem_cons.mpr ⟨pass, passed⟩, stops⟩

/-- What is waited for is found at the first operand that does not leave the decision to the next. -/
theorem evalUntil_eq_ok : evalUntil c truth xs = .ok truth ↔
    ∃ before x after, xs = before ++ x :: after ∧ (∀ y ∈ before, ComesTo c (!truth) y) ∧
      ComesTo c truth x := by
  constructor
  · intro h
    rcases exists_first c truth xs with passed | ⟨before, x, after, rfl, passed, stops⟩
    · rw [evalUntil_all passed] at h
      cases truth <;> cases h
    · rcases stops with decides | ⟨e, fails⟩
      · exact ⟨before, x, after, rfl, passed, decides⟩
      · rw [evalUntil_passed passed, evalUntil_failed fails] at h
        cases h
  · rintro ⟨before, x, after, rfl, passed, decides⟩
    rw [evalUntil_passed passed, evalUntil_decided decides]

/-- A failure is that of the first operand that does not leave the decision to the next. -/
theorem evalUntil_eq_error {e : EvalError} : evalUntil c truth xs = .error e ↔
    ∃ before x after, xs = before ++ x :: after ∧ (∀ y ∈ before, ComesTo c (!truth) y) ∧
      eval c x = .error e := by
  constructor
  · intro h
    rcases exists_first c truth xs with passed | ⟨before, x, after, rfl, passed, stops⟩
    · rw [evalUntil_all passed] at h
      cases h
    · rw [evalUntil_passed passed] at h
      rcases stops with decides | ⟨e', fails⟩
      · rw [evalUntil_decided decides] at h
        cases h
      · rw [evalUntil_failed fails] at h
        cases h
        exact ⟨before, x, after, rfl, passed, fails⟩
  · rintro ⟨before, x, after, rfl, passed, fails⟩
    rw [evalUntil_passed passed, evalUntil_failed fails]

/-- Behind operands that do not fail, a failure surfaces exactly if none of them decides. -/
theorem evalUntil_surfaces {before : List Value} {x : Value} {e : EvalError}
    (defined : ∀ y ∈ before, ∃ v, eval c y = .ok v) (fails : eval c x = .error e)
    (after : List Value) :
    evalUntil c truth (before ++ x :: after) = .error e ↔ ∀ y ∈ before, ¬ComesTo c truth y := by
  rcases exists_first c truth before with passed | ⟨front, y, back, rfl, passed, stops⟩
  · have hopen : ∀ y ∈ before, ¬ComesTo c truth y := by
      rintro y hy ⟨v, hv, htruth⟩
      obtain ⟨w, hw, hother⟩ := passed y hy
      cases hv.symm.trans hw
      rw [htruth] at hother
      cases truth <;> cases hother
    rw [evalUntil_passed passed, evalUntil_failed fails]
    exact iff_of_true rfl hopen
  · rcases stops with decides | ⟨e', hy⟩
    · rw [List.append_assoc, List.cons_append, evalUntil_passed passed, evalUntil_decided decides]
      exact iff_of_false (fun h => by cases h) fun hopen => hopen y (by simp) decides
    · obtain ⟨v, hv⟩ := defined y (by simp)
      cases hv.symm.trans hy

/-- The opposites of the operands come to the opposite, or fail alike. -/
theorem evalUntil_negation (c : Value) (truth : Bool) (xs : List Value) :
    evalUntil c (!truth) (xs.map negation) = (evalUntil c truth xs).map not := by
  induction xs with
  | nil => rw [List.map_nil, evalUntil_nil, evalUntil_nil, Except.ok_map]
  | cons x xs ih =>
    rw [List.map_cons, evalUntil_cons, evalUntil_cons, eval_negation, ih]
    cases eval c x with
    | error e => rfl
    | ok v =>
      have htruthy : truthy (.bool !truthy v) = !truthy v := rfl
      rw [Except.ok_map, Except.ok_bind, Except.ok_bind, htruthy]
      cases truthy v <;> cases truth <;> rfl

end operands

/-- Not all is some not, and not some is all not, with the same failures. Nothing behind an operand that
decides matters, and a failure surfaces exactly if no operand before it decides. -/
theorem connectives_dual (c : Value) (truth : Bool) {xs : List Value} (given : xs ≠ []) :
    eval c (.node "not" (.node (connective truth) (.arr xs))) =
        eval c (.node (connective !truth) (.arr (xs.map negation))) ∧
      (∀ before x after, xs = before ++ x :: after → ComesTo c truth x →
        eval c (.node (connective truth) (.arr xs)) =
          eval c (.node (connective truth) (.arr (before ++ [x])))) ∧
      (eval c (.node (connective truth) (.arr xs)) = .ok (.bool truth) ↔
        ∃ before x after, xs = before ++ x :: after ∧ (∀ y ∈ before, ComesTo c (!truth) y) ∧
          ComesTo c truth x) ∧
      (∀ e, eval c (.node (connective truth) (.arr xs)) = .error e ↔
        ∃ before x after, xs = before ++ x :: after ∧ (∀ y ∈ before, ComesTo c (!truth) y) ∧
          eval c x = .error e) ∧
      ∀ before x after e, xs = before ++ x :: after → (∀ y ∈ before, ∃ v, eval c y = .ok v) →
        eval c x = .error e → (eval c (.node (connective truth) (.arr xs)) = .error e ↔
          ∀ y ∈ before, ¬ComesTo c truth y) := by
  have hnot : Method.ofName? "not" = some (.unary .not) := rfl
  have hnode : eval c (.node (connective truth) (.arr xs)) = (evalUntil c truth xs).map .bool :=
    eval_connective given
  refine ⟨?_, ?_, ?_, ?_, ?_⟩
  · rw [eval_node_bare c hnot rfl, hnode, eval_connective (by simpa using given),
      evalUntil_negation]
    cases evalUntil c truth xs <;> rfl
  · rintro before x after rfl decides
    rw [hnode, eval_connective (by simp), evalUntil_cut decides]
  · rw [hnode, ← evalUntil_eq_ok, Except.map_eq_ok]
    constructor
    · rintro ⟨b, hb, h⟩
      cases h
      exact hb
    · exact fun h => ⟨truth, h, rfl⟩
  · intro e
    rw [hnode, Except.map_eq_error, evalUntil_eq_error]
  · rintro before x after e rfl defined fails
    rw [hnode, Except.map_eq_error, evalUntil_surfaces defined fails]

/-- Of three operands the first holds and the second is no expression: one method fails at the second,
the other does not come to it. -/
theorem connectives_dual_unknown :
    let xs : List Value := [.bool true, .node "frobnicate" .null, .bool false]
    xs ≠ [] ∧
      eval .null (.node "not" (.node "and" (.arr xs))) = .error (.invalidOperator "frobnicate") ∧
      eval .null (.node "or" (.arr (xs.map negation))) = .error (.invalidOperator "frobnicate") ∧
      eval .null (.node "not" (.node "or" (.arr xs))) = .ok (.bool false) ∧
      eval .null (.node "and" (.arr (xs.map negation))) = .ok (.bool false) := by
  intro xs
  have given : xs ≠ [] := by simp [xs]
  have hall := connectives_dual .null false given
  have hany := connectives_dual .null true given
  have hfails : eval .null (.node "not" (.node "and" (.arr xs))) =
      .error (.invalidOperator "frobnicate") := rfl
  have hholds : eval .null (.node "not" (.node "or" (.arr xs))) = .ok (.bool false) := rfl
  exact ⟨given, hfails, hall.1.symm.trans hfails, hholds, hany.1.symm.trans hholds⟩

end RecordGraph.Expr
