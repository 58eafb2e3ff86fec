import RecordGraph.Proofs.Algebra.Shape
import RecordGraph.Algebra.Predicate

/-!
The conjunctive form: it has the form it is named for, is wide where the tree is, and names no symbol
that the tree does not name. The operands of a tree in normal form are in normal form again.
-/
namespace RecordGraph.Algebra

/-! Clauses are not empty -/

/-- There are clauses, and each has literals. -/
def Filled (cs : List Clause) : Prop := cs ≠ [] ∧ ∀ c ∈ cs, c ≠ []

theorem Filled.combine {acc next : List Clause} (hacc : acc ≠ []) (hnext : Filled next) :
    Filled (combine acc next) := by
  obtain ⟨left, hleft⟩ := List.exists_mem_of_ne_nil acc hacc
  obtain ⟨right, hright⟩ := List.exists_mem_of_ne_nil next hnext.1
  constructor
  · exact List.ne_nil_of_mem (List.mem_flatMap.mpr ⟨left, hleft, List.mem_map_of_mem hright⟩)
  · intro c hc
    obtain ⟨left, -, hc⟩ := List.mem_flatMap.mp hc
    obtain ⟨right, hright, rfl⟩ := List.mem_map.mp hc
    obtain ⟨l, hl⟩ := List.exists_mem_of_ne_nil right (hnext.2 right hright)
    exact List.ne_nil_of_mem ((Clause.mem_merge left right l).mpr (.inr hl))

theorem Filled.foldl {acc : List Clause} {choices : List (List Clause)} (hacc : Filled acc)
    (h : ∀ cs ∈ choices, Filled cs) : Filled (choices.foldl Algebra.combine acc) := by
  induction choices generalizing acc with
  | nil => exact hacc
  | cons next choices ih =>
    rw [List.forall_mem_cons] at h
    exact ih (.combine hacc.1 h.1) h.2

theorem Filled.distribute {choices : List (List Clause)} (some : choices ≠ [])
    (h : ∀ cs ∈ choices, Filled cs) : Filled (distribute choices) := by
  cases choices with
  | nil => exact absurd rfl some
  | cons next choices =>
    rw [List.forall_mem_cons] at h
    rw [distribute_eq, List.foldl_cons]
    exact .foldl (.combine (by simp) h.1) h.2

theorem Filled.flatten {choices : List (List Clause)} (some : choices ≠ [])
    (h : ∀ cs ∈ choices, Filled cs) : Filled choices.flatten := by
  obtain ⟨cs, hcs⟩ := List.exists_mem_of_ne_nil choices some
  obtain ⟨c, hc⟩ := List.exists_mem_of_ne_nil cs (h cs hcs).1
  constructor
  · exact List.ne_nil_of_mem (List.mem_flatten_of_mem hcs hc)
  · intro c hc
    obtain ⟨cs, hcs, hc⟩ := List.mem_flatten.mp hc
    exact (h cs hcs).2 c hc

/-! Literals of clauses -/

/-- Every literal satisfies `p`. -/
def Over (p : Literal → Prop) (cs : List Clause) : Prop := ∀ c ∈ cs, ∀ l ∈ c, p l

theorem Over.flatten {p : Literal → Prop} {choices : List (List Clause)}
    (h : ∀ cs ∈ choices, Over p cs) : Over p choices.flatten := by
  intro c hc
  obtain ⟨cs, hcs, hc⟩ := List.mem_flatten.mp hc
  exact h cs hcs c hc

theorem Over.distribute {p : Literal → Prop} {choices : List (List Clause)}
    (h : ∀ cs ∈ choices, Over p cs) : Over p (distribute choices) := by
  have run {acc : List Clause} (hacc : Over p acc) : Over p (choices.foldl combine acc) := by
    induction choices generalizing acc with
    | nil => exact hacc
    | cons next choices ih =>
      rw [List.forall_mem_cons] at h
      apply ih h.2
      intro c hc l hl
      obtain ⟨left, hleft, hc⟩ := List.mem_flatMap.mp hc
      obtain ⟨right, hright, rfl⟩ := List.mem_map.mp hc
      obtain hl | hl := (Clause.mem_merge left right l).mp hl
      · exact hacc left hleft l hl
      · exact h.1 right hright l hl
  rw [distribute_eq]
  exact run (by simp [Over])

namespace Tree

theorem clausesEach_eq (positive : Bool) (ts : List Tree) :
    clausesEach positive ts = ts.map (clauses positive) := by
  induction ts with
  | nil => rfl
  | cons t ts ih => simp [clausesEach, ih]

theorem namesAll_eq (ts : List Tree) : namesAll ts = ts.flatMap names := by
  induction ts with
  | nil => rfl
  | cons t ts ih => simp [namesAll, ih]

@[simp] theorem names_and (ts : List Tree) : names (.and ts) = ts.flatMap names := namesAll_eq ts
@[simp] theorem names_or (ts : List Tree) : names (.or ts) = ts.flatMap names := namesAll_eq ts

theorem forall_clausesEach {p : List Clause → Prop} {positive : Bool} {ts : List Tree}
    (h : ∀ t ∈ ts, p (t.clauses positive)) : ∀ cs ∈ clausesEach positive ts, p cs := by
  rw [clausesEach_eq]
  exact List.forall_mem_map.mpr h

theorem clausesEach_ne_nil {positive : Bool} {ts : List Tree} (two : 2 ≤ ts.length) :
    clausesEach positive ts ≠ [] := by
  rw [clausesEach_eq]
  exact List.ne_nil_of_length_pos (by rw [List.length_map]; omega)

theorem filled_clauses {t : Tree} (h : t.Wide) (positive : Bool) :
    Filled (t.clauses positive) := by
  induction h generalizing positive with
  | symbol name => simp [clauses, Filled]
  | not _ ih => exact ih !positive
  | and two _ ih =>
    have each := forall_clausesEach fun t ht => ih t ht positive
    rw [clauses]
    split
    · exact .flatten (clausesEach_ne_nil two) each
    · exact .distribute (clausesEach_ne_nil two) each
  | or two _ ih =>
    have each := forall_clausesEach fun t ht => ih t ht positive
    rw [clauses]
    split
    · exact .distribute (clausesEach_ne_nil two) each
    · exact .flatten (clausesEach_ne_nil two) each

theorem over_clauses {p : String → Prop} (t : Tree) (positive : Bool) (h : ∀ n ∈ t.names, p n) :
    Over (fun l => p l.name) (t.clauses positive) := by
  induction t generalizing positive with
  | symbol name => simpa [clauses, names, Over] using h
  | not t ih => exact ih (!positive) h
  | and ts ih =>
    simp only [names_and, List.forall_mem_flatMap] at h
    have each := forall_clausesEach fun t ht => ih t ht positive (h t ht)
    rw [clauses]
    split
    · exact .flatten each
    · exact .distribute each
  | or ts ih =>
    simp only [names_or, List.forall_mem_flatMap] at h
    have each := forall_clausesEach fun t ht => ih t ht positive (h t ht)
    rw [clauses]
    split
    · exact .distribute each
    · exact .flatten each

/-! The conjunctive form -/

theorem isLiteral_tree (l : Literal) : l.tree.isLiteral := by
  obtain ⟨positive, name⟩ := l
  cases positive <;> rfl

theorem names_tree (l : Literal) : l.tree.names = [l.name] := by
  obtain ⟨positive, name⟩ := l
  cases positive <;> rfl

theorem conjuncts_of_isClause {t : Tree} (h : t.isClause) : t.conjuncts = [t] := by
  cases t <;> simp_all [conjuncts, isClause, isLiteral]

theorem disjuncts_of_isLiteral {t : Tree} (h : t.isLiteral) : t.disjuncts = [t] := by
  cases t <;> simp_all [disjuncts, isLiteral]

theorem flatMap_eq_self {f : Tree → List Tree} {ts : List Tree} (h : ∀ t ∈ ts, f t = [t]) :
    ts.flatMap f = ts := by
  induction ts with
  | nil => rfl
  | cons t ts ih =>
    rw [List.forall_mem_cons] at h
    rw [List.flatMap_cons, h.1, ih h.2, List.singleton_append]

theorem disj_literals (c : Clause) :
    disj (c.map Literal.tree) = collapse .or (c.map Literal.tree) := by
  rw [disj, flatMap_eq_self (List.forall_mem_map.mpr fun l _ =>
    disjuncts_of_isLiteral (isLiteral_tree l))]

theorem isClause_of_isLiteral {t : Tree} (h : t.isLiteral) : t.isClause := by
  cases t <;> simp_all [isClause, isLiteral]

theorem isClause_disj (c : Clause) : (disj (c.map Literal.tree)).isClause := by
  have h : ∀ t ∈ c.map Literal.tree, t.isLiteral := List.forall_mem_map.mpr fun l _ => isLiteral_tree l
  rw [disj_literals]
  obtain ⟨t, ht, hc⟩ | ⟨-, hc⟩ := collapse_eq .or (c.map Literal.tree)
  · rw [hc]
    exact isClause_of_isLiteral (h t (by simp [ht]))
  · rw [hc]
    exact List.all_eq_true.mpr h

/-- Clauses have no conjunction to splice. -/
theorem toCnf_eq (t : Tree) :
    t.toCnf = collapse .and ((t.clauses true).map fun c => disj (c.map Literal.tree)) := by
  rw [toCnf, conj, flatMap_eq_self (List.forall_mem_map.mpr fun c _ =>
    conjuncts_of_isClause (isClause_disj c))]

theorem isCnf_of_isClause {t : Tree} (h : t.isClause) : t.isCnf := by
  cases t <;> simp_all [isCnf, isClause, isLiteral]

theorem isCnf_toCnf (t : Tree) : t.toCnf.isCnf := by
  have h : ∀ u ∈ (t.clauses true).map fun c => disj (c.map Literal.tree), u.isClause :=
    List.forall_mem_map.mpr fun c _ => isClause_disj c
  rw [toCnf_eq]
  obtain ⟨u, hu, hc⟩ | ⟨-, hc⟩ := collapse_eq .and ((t.clauses true).map _)
  · rw [hc]
    exact isCnf_of_isClause (h u (by rw [hu]; exact List.mem_singleton_self u))
  · rw [hc]
    exact List.all_eq_true.mpr h

theorem wide_tree (l : Literal) : l.tree.Wide := by
  obtain ⟨positive, name⟩ := l
  cases positive
  · exact .not (.symbol name)
  · exact .symbol name

theorem Wide.toCnf {t : Tree} (h : t.Wide) : t.toCnf.Wide := by
  obtain ⟨some, filled⟩ := filled_clauses h true
  refine .conj (by simpa using some) ?_
  intro u hu
  obtain ⟨c, hc, rfl⟩ := List.mem_map.mp hu
  exact .disj (by simpa using filled c hc) (List.forall_mem_map.mpr fun l _ => wide_tree l)

theorem names_collapse {build : List Tree → Tree} (h : ∀ ts, names (build ts) = ts.flatMap names)
    (ts : List Tree) : names (collapse build ts) = ts.flatMap names := by
  obtain ⟨t, rfl, hc⟩ | ⟨-, hc⟩ := collapse_eq build ts
  · simp [hc]
  · rw [hc, h]

/-- The conjunctive form has no new symbol. -/
theorem names_toCnf {p : String → Prop} {t : Tree} (h : ∀ n ∈ t.names, p n) :
    ∀ n ∈ t.toCnf.names, p n := by
  rw [toCnf_eq, names_collapse names_and]
  simp only [List.forall_mem_flatMap, List.forall_mem_map]
  intro c hc
  rw [disj_literals, names_collapse names_or]
  simp only [List.forall_mem_flatMap, List.forall_mem_map, names_tree, List.mem_singleton, forall_eq]
  exact over_clauses t true h c hc

/-! The normal form -/

theorem Wide.normal {t : Tree} (h : t.Wide) : t.normal.Wide := by
  unfold Tree.normal
  split
  · exact h
  · exact h.toCnf

theorem names_normal {p : String → Prop} {t : Tree} (h : ∀ n ∈ t.names, p n) :
    ∀ n ∈ t.normal.names, p n := by
  unfold normal
  split
  · exact h
  · exact names_toCnf h

/-- The tree is in conjunctive or in disjunctive form. -/
def IsNormal (t : Tree) : Prop := t.isCnf ∨ t.isDnf

theorem IsNormal.normal_eq {t : Tree} (h : t.IsNormal) : t.normal = t := by
  unfold Tree.normal
  rw [if_pos (by simpa [IsNormal] using h)]

theorem isNormal_normal (t : Tree) : t.normal.IsNormal := by
  unfold normal
  split
  · rename_i h
    simpa [IsNormal] using h
  · exact .inl (isCnf_toCnf t)

theorem isTerm_of_isLiteral {t : Tree} (h : t.isLiteral) : t.isTerm := by
  cases t <;> simp_all [isTerm, isLiteral]

theorem isDnf_of_isTerm {t : Tree} (h : t.isTerm) : t.isDnf := by
  cases t <;> simp_all [isDnf, isTerm, isLiteral]

theorem isNormal_of_isLiteral {t : Tree} (h : t.isLiteral) : t.IsNormal :=
  .inl (isCnf_of_isClause (isClause_of_isLiteral h))

theorem isNormal_of_not {t : Tree} (h : (Tree.not t).IsNormal) : t.IsNormal := by
  have hl : (Tree.not t).isLiteral := by simpa [IsNormal, isCnf, isClause, isDnf, isTerm] using h
  cases t with
  | symbol name => exact isNormal_of_isLiteral rfl
  | _ => simp [isLiteral] at hl

/-- The operands of a normal form are in normal form. -/
theorem IsNormal.operands {ts : List Tree} (h : (Tree.and ts).IsNormal ∨ (Tree.or ts).IsNormal) :
    ∀ t ∈ ts, t.IsNormal := by
  intro t ht
  rcases h with (h | h) | (h | h)
  · exact .inl (isCnf_of_isClause (List.all_eq_true.mp h t ht))
  · exact isNormal_of_isLiteral (List.all_eq_true.mp h t ht)
  · exact isNormal_of_isLiteral (List.all_eq_true.mp h t ht)
  · exact .inr (isDnf_of_isTerm (List.all_eq_true.mp h t ht))

end Tree
end RecordGraph.Algebra
