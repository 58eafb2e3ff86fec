import Mathlib.Data.List.Pairwise
import Mathlib.Data.List.Perm.Basic
import RecordGraph.Proofs.Expr.Eval
import RecordGraph.Proofs.Value.Same

/-!
Equality and order of values as expressions see them. Values are equal if their measured forms agree, in
which numbers outside of maps are doubles; so equality is an equivalence, and neighbours are all that `=`
has to look at. The order is one of numbers, of texts and of truth values, each with this equality.
-/
namespace RecordGraph.Expr
open Std

/-! Equality -/

mutual
/-- The plain form of a value, its numbers taken as doubles unless a map holds them. -/
def measured : Value → Value
  | .num n => .num (.double n.toDouble.plain)
  | .arr xs => .arr (measuredItems xs)
  | v => v.plain

def measuredItems : List Value → List Value
  | [] => []
  | x :: xs => measured x :: measuredItems xs
end

theorem number_equal_iff {m n : Number} : m.equal n ↔ m.toDouble.plain = n.toDouble.plain :=
  Double.same_iff

mutual
theorem equal_iff : ∀ {v w : Value}, equal v w ↔ measured v = measured w
  | .num n, w => by
    cases w <;> simp [equal, measured, Value.plain, Value.same, number_equal_iff]
  | .arr xs, w => by
    cases w <;> simp [equal, measured, Value.plain, Value.same, equalItems_iff]
  | .obj es, w => by
    cases w <;> simp [equal, measured, Value.plain, Value.same, Value.sameEntries_iff]
  | .null, w => by cases w <;> simp [equal, measured, Value.plain, Value.same]
  | .bool b, w => by cases w <;> simp [equal, measured, Value.plain, Value.same]
  | .str s, w => by cases w <;> simp [equal, measured, Value.plain, Value.same]

theorem equalItems_iff : ∀ {xs ys : List Value},
    equalItems xs ys ↔ measuredItems xs = measuredItems ys
  | [], ys => by cases ys <;> simp [equalItems, measuredItems]
  | x :: xs, ys => by cases ys <;> simp [equalItems, measuredItems, equal_iff, equalItems_iff]
end

theorem equal_equivalence : Equivalence fun v w => equal v w = true where
  refl _ := equal_iff.mpr rfl
  symm h := equal_iff.mpr (equal_iff.mp h).symm
  trans h h' := equal_iff.mpr ((equal_iff.mp h).trans (equal_iff.mp h'))

/-- Neighbours are equal exactly if all values are. -/
theorem allEqual_iff {vs : List Value} : allEqual vs ↔ ∀ v ∈ vs, ∀ w ∈ vs, equal v w := by
  have hchain : allEqual vs ↔ vs.IsChain fun v w => equal v w = true := by
    induction vs with
    | nil => simp [allEqual]
    | cons v vs ih =>
      cases vs with
      | nil => simp [allEqual]
      | cons w vs => rw [allEqual, Bool.and_eq_true, List.isChain_cons_cons, ih]
  have : IsTrans Value fun v w => equal v w = true := ⟨fun _ _ _ => equal_equivalence.trans⟩
  have : Symm fun v w => equal v w = true := ⟨fun _ _ => equal_equivalence.symm⟩
  rw [hchain, List.isChain_iff_pairwise]
  constructor
  · exact List.Pairwise.forall_of_forall fun v _ => equal_equivalence.refl v
  · exact List.pairwise_of_forall_mem_list

/-- Equal items are members of equal lists. -/
theorem contains_congr {xs ys : List Value} (items : equalItems xs ys) {v w : Value} (h : equal v w) :
    contains (.arr xs) v = contains (.arr ys) w := by
  have hitem {x y : Value} (hxy : equal x y) : equal x v = equal y w := by
    rw [Bool.eq_iff_iff, equal_iff, equal_iff, equal_iff.mp hxy, equal_iff.mp h]
  rw [contains, contains]
  induction xs generalizing ys with
  | nil =>
    cases ys with
    | nil => rfl
    | cons y ys => cases items
  | cons x xs ih =>
    cases ys with
    | nil => cases items
    | cons y ys =>
      rw [equalItems, Bool.and_eq_true] at items
      rw [List.any_cons, List.any_cons, hitem items.1, ih items.2]

/-! Order -/

/-- Compared the other way round, values are in the opposite order. -/
theorem order_swap (v w : Value) : order w v = (order v w).map Ordering.swap := by
  have swap {α : Type} [Ord α] [OrientedOrd α] (a b : α) :
      some (compare b a) = (some (compare a b)).map Ordering.swap := congrArg some OrientedCmp.eq_swap
  cases v with
  | num a => cases w <;> first | exact swap a.toDouble.key _ | rfl
  | str a => cases w <;> first | exact swap a _ | rfl
  | bool a => cases w <;> first | exact swap a _ | rfl
  | _ => cases w <;> rfl

/-- Of two steps that do not go down, the first that goes up tells the order of the ends. -/
theorem order_then {u v w : Value} {a b : Ordering} (huv : order u v = some a)
    (hvw : order v w = some b) (ha : a ≠ .gt) (hb : b ≠ .gt) : order u w = some (a.then b) := by
  have chain {α : Type} [Ord α] [TransOrd α] {x y z : α} (hxy : some (compare x y) = some a)
      (hyz : some (compare y z) = some b) : some (compare x z) = some (a.then b) := by
    rw [Option.some.injEq] at hxy hyz ⊢
    cases a with
    | gt => exact absurd rfl ha
    | eq => exact (TransCmp.congr_left hxy).trans hyz
    | lt =>
      cases b with
      | gt => exact absurd rfl hb
      | eq => exact TransCmp.lt_of_lt_of_eq hxy hyz
      | lt => exact TransCmp.lt_trans hxy hyz
  cases v with
  | num y =>
    cases u with
    | num x =>
      cases w with
      | num z => exact chain (y := y.toDouble.key) huv hvw
      | _ => cases hvw
    | _ => cases huv
  | str y =>
    cases u with
    | str x =>
      cases w with
      | str z => exact chain (y := y) huv hvw
      | _ => cases hvw
    | _ => cases huv
  | bool y =>
    cases u with
    | bool x =>
      cases w with
      | bool z => exact chain (y := y) huv hvw
      | _ => cases hvw
    | _ => cases huv
  | _ => cases w <;> cases hvw

theorem order_trans {u v w : Value} (huv : order u v = some .gt) (hvw : order v w = some .gt) :
    order u w = some .gt := by
  have hvu : order v u = some .lt := by rw [order_swap, huv]; rfl
  have hwv : order w v = some .lt := by rw [order_swap, hvw]; rfl
  rw [order_swap, order_then hwv hvu (by decide) (by decide)]
  rfl

/-! Numbers, texts and truth values are in no order exactly if they are equal -/

theorem order_number {n : Number} {w : Value} : order (.num n) w = some .eq ↔ equal (.num n) w := by
  cases w <;> simp [order, Number.order, Double.order, equal, Number.equal, Double.same, Value.same]

theorem order_text {s : String} {w : Value} : order (.str s) w = some .eq ↔ equal (.str s) w := by
  have hcompare (t : String) : orderText s t = compare s t := rfl
  cases w <;> simp [order, hcompare, equal, Value.same]

theorem order_truth {b : Bool} {w : Value} : order (.bool b) w = some .eq ↔ equal (.bool b) w := by
  cases w <;> simp [order, equal, Value.same]

/-! Operands of `=` -/

section operands
variable {c : Value} {xs ys : List Value} {name : String}

theorem eval_equal (hm : Method.ofName? name = some (.variadic .equal)) {w : Value} :
    eval c (.node name (.arr xs)) = .ok w ↔
      ∃ vs, List.Forall₂ (fun x v => eval c x = .ok v) xs vs ∧ w = .bool (allEqual vs) := by
  rw [eval_node_variadic c hm, Except.map_eq_ok]
  simp only [evalItems_eq_ok, eq_comm (b := w)]
  rfl

/-- What `=` comes to does not depend on the order of its operands. -/
theorem eval_equal_perm (hm : Method.ofName? name = some (.variadic .equal)) (perm : xs.Perm ys)
    {w : Value} (h : eval c (.node name (.arr xs)) = .ok w) :
    eval c (.node name (.arr ys)) = .ok w := by
  obtain ⟨vs, hvs, rfl⟩ := (eval_equal hm).mp h
  obtain ⟨ws, hws, hperm⟩ := List.perm_comp_forall₂ perm.symm hvs
  have hall : allEqual vs = allEqual ws := by
    rw [Bool.eq_iff_iff, allEqual_iff, allEqual_iff]
    simp only [hperm.mem_iff]
  exact (eval_equal hm).mpr ⟨ws, hws, by rw [hall]⟩

end operands

/-- Equality is an equivalence, so `=` holds exactly if all its operands are equal, in any order. The
order of two values is the opposite of the order the other way round, and goes on from value to value;
numbers, texts and truth values are in no order exactly if they are equal. Equal items are members of
the same lists, and equal lists have the same members. -/
theorem equality_coherent :
    (Equivalence fun v w => equal v w = true) ∧
      (∀ c name xs, Method.ofName? name = some (.variadic .equal) →
        (eval c (.node name (.arr xs)) = .ok (.bool true) ↔
          ∃ vs, List.Forall₂ (fun x v => eval c x = .ok v) xs vs ∧
            ∀ v ∈ vs, ∀ w ∈ vs, equal v w) ∧
        ∀ ys, xs.Perm ys → ∀ w, eval c (.node name (.arr xs)) = .ok w ↔
          eval c (.node name (.arr ys)) = .ok w) ∧
      (∀ v w, order w v = (order v w).map Ordering.swap) ∧
      (∀ u v w a b, order u v = some a → order v w = some b → a ≠ .gt → b ≠ .gt →
        order u w = some (a.then b)) ∧
      (∀ n w, order (.num n) w = some .eq ↔ equal (.num n) w) ∧
      (∀ s w, order (.str s) w = some .eq ↔ equal (.str s) w) ∧
      (∀ b w, order (.bool b) w = some .eq ↔ equal (.bool b) w) ∧
      ∀ xs ys v w, equal (.arr xs) (.arr ys) → equal v w →
        contains (.arr xs) v = contains (.arr ys) w := by
  refine ⟨equal_equivalence, fun c name xs hm => ⟨?_, fun ys perm w => ?_⟩, order_swap,
    fun u v w a b huv hvw ha hb => order_then huv hvw ha hb, fun _ _ => order_number,
    fun _ _ => order_text, fun _ _ => order_truth, fun xs ys v w items h => ?_⟩
  · rw [eval_equal hm]
    refine exists_congr fun vs => and_congr_right fun _ => ?_
    rw [Value.bool.injEq, eq_comm, allEqual_iff]
  · exact ⟨eval_equal_perm hm perm, eval_equal_perm hm perm.symm⟩
  · rw [equal] at items
    exact contains_congr items h

/-- Two integers of which only one is a double: they are told apart as values, and equal all the same. -/
theorem equality_coherent_rounded :
    let a := Value.uint 9007199254740992
    let b := Value.uint 9007199254740993
    Method.ofName? "=" = some (.variadic .equal) ∧ a.same b = false ∧ equal a b ∧
      eval .null (.node "=" (.arr [a, b, a])) = .ok (.bool true) ∧
      eval .null (.node "=" (.arr [b, a, a])) = .ok (.bool true) ∧ order a b = some .eq ∧
      contains (.arr [a]) b = contains (.arr [b]) a := by
  intro a b
  obtain ⟨equivalence, operands, -, -, numbers, -, -, members⟩ := equality_coherent
  have hab : equal a b := by decide +kernel
  have hba : equal b a := equivalence.symm hab
  have hname : Method.ofName? "=" = some (.variadic .equal) := rfl
  obtain ⟨holds, perm⟩ := operands .null "=" [a, b, a] hname
  have heval : eval .null (.node "=" (.arr [a, b, a])) = .ok (.bool true) := by
    refine holds.mpr ⟨[a, b, a], .cons rfl (.cons rfl (.cons rfl .nil)), ?_⟩
    simp [hab, hba, equivalence.refl a, equivalence.refl b]
  exact ⟨hname, by decide +kernel, hab, heval, (perm [b, a, a] (.swap b a [a]) _).mp heval,
    (numbers _ b).mpr hab, members [a] [b] b a (by simp [equal, equalItems, hab]) hba⟩

end RecordGraph.Expr
