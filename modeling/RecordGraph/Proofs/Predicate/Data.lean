import RecordGraph.Proofs.Predicate.Prepare
import RecordGraph.Proofs.Predicate.Substitution

/-!
Data that is written into an expression. Literals, rooted references, field paths and values that
evaluate are told apart by four recursions of their own; a value without maps, once it is written as a
literal, is data to each of them.
-/
namespace RecordGraph
namespace Value
variable {v : Value}

mutual
/-- Without maps, also without empty ones. -/
def isUnkeyed : Value → Bool
  | .arr xs => allUnkeyed xs
  | .obj _ => false
  | _ => true

def allUnkeyed : List Value → Bool
  | [] => true
  | x :: xs => isUnkeyed x && allUnkeyed xs
end

theorem allUnkeyed_eq (xs : List Value) : allUnkeyed xs = xs.all isUnkeyed := by
  induction xs with
  | nil => rfl
  | cons x xs ih => rw [allUnkeyed, ih, List.all_cons]

theorem isMapless_of_isUnkeyed (h : v.isUnkeyed) : v.isMapless := by
  induction v with
  | arr xs ih =>
    rw [isUnkeyed, allUnkeyed_eq, List.all_eq_true] at h
    rw [isMapless, allMapless_eq, List.all_eq_true]
    exact fun x hx => ih x hx (h x hx)
  | obj es => cases h
  | null | bool | num | str => rfl

/-! What each reading makes of a literal -/

/-- A value is written as a literal, unless a map is among what it holds. -/
theorem isLiteral_makeLiteral : Expr.isLiteral (Expr.makeLiteral v) = v.isUnkeyed := by
  induction v with
  | null | bool | num => rfl
  | str s => simp [Expr.makeLiteral, Expr.isLiteral, isUnkeyed]
  | arr xs ih =>
    rw [Expr.makeLiteral, makeLiteralAll_eq, Expr.isLiteral, Expr.allLiteral_eq, isUnkeyed,
      allUnkeyed_eq, List.all_map, Bool.eq_iff_iff, List.all_eq_true, List.all_eq_true]
    exact forall₂_congr fun x hx => by rw [Function.comp_apply, ih x hx]
  | obj es => rfl

theorem unliteral_makeLiteral (v : Value) : Expr.unliteral (Expr.makeLiteral v) = v := by
  induction v with
  | null | bool | num | obj => rfl
  | str s => simp [Expr.makeLiteral, Expr.unliteral]
  | arr xs ih =>
    have each : xs.map (Expr.unliteral ∘ Expr.makeLiteral) = xs :=
      (List.map_congr_left ih).trans xs.map_id'
    rw [Expr.makeLiteral, makeLiteralAll_eq, Expr.unliteral, Expr.unliteralAll_eq, List.map_map, each]

/-- A literal holds no reference that resolving would replace. -/
theorem resolve_makeLiteral (h : v.isMapless) (scope : Value) :
    resolve scope (Expr.makeLiteral v) = .ok (Expr.makeLiteral v) := by
  induction v with
  | null | bool | num => rfl
  | str s => exact resolve_plain scope (Expr.afterChar?_of_unquoted (Expr.unquoted?_quote s))
  | arr xs ih =>
    rw [isMapless, allMapless_eq, List.all_eq_true] at h
    rw [Expr.makeLiteral, makeLiteralAll_eq]
    refine resolve_arr_eq_ok.mpr ⟨_, ?_, rfl⟩
    rw [List.forall₂_same, List.forall_mem_map]
    exact fun x hx => ih x hx (h x hx)
  | obj es =>
    rw [isMapless, List.isEmpty_iff] at h
    rw [h]
    rfl

/-- Written as a literal, a value without maps names no field. -/
theorem toStorage_makeLiteral (h : v.isMapless) (s : Server) (r : Resource) :
    s.toStorage r (Expr.makeLiteral v) = .ok (Expr.makeLiteral v) := by
  induction v with
  | null | bool | num => rfl
  | str t => simp [Expr.makeLiteral, Server.toStorage]
  | arr xs ih =>
    rw [isMapless, allMapless_eq, List.all_eq_true] at h
    have each : (xs.map Expr.makeLiteral).mapM (s.toStorage r) = .ok (xs.map Expr.makeLiteral) := by
      rw [Except.mapM_eq_ok, List.forall₂_same, List.forall_mem_map]
      exact fun x hx => ih x hx (h x hx)
    rw [Expr.makeLiteral, makeLiteralAll_eq, Server.toStorage, toStorageItems_eq, each]
    rfl
  | obj es =>
    rw [isMapless, List.isEmpty_iff] at h
    rw [h]
    rfl

end Value

/-- Quoted data stays data. Written as a literal, a value without maps is a literal, is the value again
once the quotes are off, is left by resolving and by the translation to storage paths as it stands, and
evaluates to the value, whatever the scope, the server, the resource and the context are. -/
theorem makeLiteral_stays_data {v : Value} (unkeyed : v.isUnkeyed) (scope context : Value) (s : Server)
    (r : Resource) :
    Expr.isLiteral (Expr.makeLiteral v) ∧ Expr.unliteral (Expr.makeLiteral v) = v ∧
      resolve scope (Expr.makeLiteral v) = .ok (Expr.makeLiteral v) ∧
      s.toStorage r (Expr.makeLiteral v) = .ok (Expr.makeLiteral v) ∧
      Expr.eval context (Expr.makeLiteral v) = .ok v := by
  have mapless := Value.isMapless_of_isUnkeyed unkeyed
  exact ⟨Value.isLiteral_makeLiteral.trans unkeyed, v.unliteral_makeLiteral,
    v.resolve_makeLiteral mapless scope, v.toStorage_makeLiteral mapless s r,
    v.eval_makeLiteral mapless context⟩

/-- Texts that look like a reference, a field, a quoted text, or nothing at all. -/
theorem makeLiteral_stays_data_texts :
    let v : Value := .arr [.str ".request.title", .arr [.str "title", .str "'title'"], .str ""]
    let record : Record := [("title", .str "Emma")]
    v.isUnkeyed ∧ Expr.isLiteral (Expr.makeLiteral v) ∧ Expr.unliteral (Expr.makeLiteral v) = v ∧
      resolve Shelf.asked.scope (Expr.makeLiteral v) = .ok (Expr.makeLiteral v) ∧
      Server.toStorage {} Shelf.book (Expr.makeLiteral v) = .ok (Expr.makeLiteral v) ∧
      Expr.eval (Shelf.asked.recordScope (some record)) (Expr.makeLiteral v) = .ok v :=
  ⟨rfl, makeLiteral_stays_data rfl Shelf.asked.scope _ {} Shelf.book⟩

end RecordGraph
