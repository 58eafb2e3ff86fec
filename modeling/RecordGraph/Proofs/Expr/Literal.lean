import RecordGraph.Proofs.Expr.Eval
import RecordGraph.Proofs.Text.Pieces

/-!
Literals stand for the same value everywhere: for what is left of them when the quotes are taken off.
-/
namespace RecordGraph

/-- Induction over a value, with the hypothesis for every item of a list and every entry of a map. -/
@[elab_as_elim, induction_eliminator]
theorem Value.inductionOn {motive : Value → Prop} (null : motive .null)
    (bool : ∀ b, motive (.bool b)) (num : ∀ n, motive (.num n)) (str : ∀ s, motive (.str s))
    (arr : ∀ xs, (∀ x ∈ xs, motive x) → motive (.arr xs))
    (obj : ∀ es : List (String × Value), (∀ e ∈ es, motive e.2) → motive (.obj es)) (v : Value) :
    motive v := by
  refine Value.rec (motive_1 := motive) (motive_2 := fun xs => ∀ x ∈ xs, motive x)
    (motive_3 := fun es => ∀ e ∈ es, motive e.2) (motive_4 := fun e => motive e.2)
    null bool num str arr obj ?_ ?_ ?_ ?_ ?_ v
  · simp
  · exact fun x xs hx hxs => List.forall_mem_cons.mpr ⟨hx, hxs⟩
  · simp
  · exact fun e es he hes => List.forall_mem_cons.mpr ⟨he, hes⟩
  · exact fun _ _ hv => hv

namespace Expr

@[simp] theorem unquoted?_quote (s : String) : unquoted? (quote s) = some s := by
  have hq : (quote s).toList = '"' :: (s.toList ++ ['"']) := by simp [quote]
  obtain ⟨d, rest, hd⟩ := List.exists_cons_of_ne_nil (show s.toList ++ ['"'] ≠ [] by simp)
  unfold unquoted?
  rw [hq, hd]
  dsimp only
  rw [← hd]
  simp [isQuote]

theorem unquoted?_of_not_isQuote {s : String} {c : Char} {cs : List Char} (hs : s.toList = c :: cs)
    (h : isQuote c = false) : unquoted? s = none := by
  unfold unquoted?
  rw [hs]
  cases cs <;> simp [h]

theorem allLiteral_eq (xs : List Value) : allLiteral xs = xs.all isLiteral := by
  induction xs with
  | nil => rfl
  | cons x xs ih => rw [allLiteral, ih, List.all_cons]

theorem unliteralAll_eq (xs : List Value) : unliteralAll xs = xs.map unliteral := by
  induction xs with
  | nil => rfl
  | cons x xs ih => rw [unliteralAll, ih, List.map_cons]

theorem evalItems_map {f : Value → Value} {c : Value} {xs : List Value}
    (h : ∀ x ∈ xs, eval c x = .ok (f x)) : evalItems c xs = .ok (xs.map f) := by
  induction xs with
  | nil => rfl
  | cons x xs ih =>
    rw [List.forall_mem_cons] at h
    rw [evalItems, h.1, ih h.2, Except.ok_bind, Except.ok_map, List.map_cons]

/-- No literal looks at the context. -/
theorem eval_of_isLiteral {v : Value} (h : isLiteral v) (c : Value) :
    eval c v = .ok (unliteral v) := by
  induction v with
  | str s =>
    obtain ⟨inner, hs⟩ := Option.isSome_iff_exists.mp h
    rw [eval, evalText, unliteral, hs]
    rfl
  | arr xs ih =>
    rw [isLiteral, allLiteral_eq, List.all_eq_true] at h
    rw [eval, evalItems_map fun x hx => ih x hx (h x hx), unliteral, unliteralAll_eq]
    rfl
  | obj es => cases h
  | null | bool | num => rfl

theorem eval_node_literal {name : String} {m : Method} (hm : Method.ofName? name = some m)
    (hs : m.seesOutcomes) {xs : List Value} (h : isLiteral (.arr xs)) (c d : Value) :
    eval c (.node name (.arr xs)) = eval d (.node name (.arr xs)) := by
  rw [isLiteral, allLiteral_eq, List.all_eq_true] at h
  apply eval_node_congr hm hs
  rw [List.forall₂_same]
  exact fun x hx => (eval_of_isLiteral (h x hx) c).trans (eval_of_isLiteral (h x hx) d).symm

theorem eval_node_bare_literal {name : String} {op : Unary}
    (hm : Method.ofName? name = some (.unary op)) {v : Value} (hv : v.arr? = none)
    (h : isLiteral v) (c d : Value) : eval c (.node name v) = eval d (.node name v) := by
  rw [eval_node_bare _ hm hv, eval_node_bare _ hm hv, eval_of_isLiteral h, eval_of_isLiteral h]

theorem afterChar?_of_unquoted {s inner : String} (h : unquoted? s = some inner) :
    Text.afterChar? '.' s = none := by
  cases hs : Text.afterChar? '.' s with
  | none => rfl
  | some rest =>
    rw [unquoted?_of_not_isQuote (Text.afterChar?_eq_some.mp hs) (by decide)] at h
    cases h

end Expr
end RecordGraph
