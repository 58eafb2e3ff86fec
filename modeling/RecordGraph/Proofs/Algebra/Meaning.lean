import RecordGraph.Algebra.Predicate

/-!
What boolean trees mean. A tree holds under a valuation of its symbols as its operators say; the
constructors that splice operands and the conjunctive form keep that meaning.
-/
namespace RecordGraph.Algebra

namespace Tree

/-- Induction over a tree, with the hypothesis for every operand of an operator. -/
@[elab_as_elim, induction_eliminator]
theorem inductionOn {motive : Tree → Prop} (symbol : ∀ name, motive (.symbol name))
    (not : ∀ t, motive t → motive (.not t))
    (and : ∀ ts, (∀ t ∈ ts, motive t) → motive (.and ts))
    (or : ∀ ts, (∀ t ∈ ts, motive t) → motive (.or ts)) (t : Tree) : motive t := by
  refine Tree.rec (motive_1 := motive) (motive_2 := fun ts => ∀ t ∈ ts, motive t)
    symbol not and or ?_ ?_ t
  · simp
  · intro t ts ht hts u hu
    cases hu with
    | head => exact ht
    | tail _ hu => exact hts u hu

mutual
/-- Whether a tree is true when its symbols have the truth values of `σ`. -/
def holds (σ : String → Bool) : Tree → Bool
  | .symbol name => σ name
  | .not t => !holds σ t
  | .and ts => holdsAll σ ts
  | .or ts => holdsAny σ ts

def holdsAll (σ : String → Bool) : List Tree → Bool
  | [] => true
  | t :: ts => holds σ t && holdsAll σ ts

def holdsAny (σ : String → Bool) : List Tree → Bool
  | [] => false
  | t :: ts => holds σ t || holdsAny σ ts
end

theorem holdsAll_eq (σ : String → Bool) (ts : List Tree) : holdsAll σ ts = ts.all (holds σ) := by
  induction ts with
  | nil => rfl
  | cons t ts ih => simp [holdsAll, ih]

theorem holdsAny_eq (σ : String → Bool) (ts : List Tree) : holdsAny σ ts = ts.any (holds σ) := by
  induction ts with
  | nil => rfl
  | cons t ts ih => simp [holdsAny, ih]

@[simp] theorem holds_symbol (σ : String → Bool) (name : String) :
    holds σ (.symbol name) = σ name := rfl
@[simp] theorem holds_not (σ : String → Bool) (t : Tree) : holds σ (.not t) = !holds σ t := rfl
@[simp] theorem holds_and (σ : String → Bool) (ts : List Tree) :
    holds σ (.and ts) = ts.all (holds σ) := holdsAll_eq σ ts
@[simp] theorem holds_or (σ : String → Bool) (ts : List Tree) :
    holds σ (.or ts) = ts.any (holds σ) := holdsAny_eq σ ts

/-! Splicing constructors -/

theorem conjuncts_all (σ : String → Bool) (t : Tree) : t.conjuncts.all (holds σ) = holds σ t := by
  cases t <;> simp [conjuncts]

theorem disjuncts_any (σ : String → Bool) (t : Tree) : t.disjuncts.any (holds σ) = holds σ t := by
  cases t <;> simp [disjuncts]

theorem collapse_eq (build : List Tree → Tree) (ts : List Tree) :
    (∃ t, ts = [t] ∧ collapse build ts = t) ∨ ts.length ≠ 1 ∧ collapse build ts = build ts := by
  rcases ts with _ | ⟨t, _ | ⟨u, us⟩⟩
  · exact .inr ⟨by simp, rfl⟩
  · exact .inl ⟨t, rfl, rfl⟩
  · exact .inr ⟨by simp, rfl⟩

/-- What holds of a single operand and of the node of several holds of what they collapse to. -/
theorem collapse_cases {p : Tree → Prop} {build : List Tree → Tree} {ts : List Tree}
    (own : ∀ t ∈ ts, p t) (node : ts.length ≠ 1 → p (build ts)) : p (collapse build ts) := by
  obtain ⟨t, ht, hc⟩ | ⟨hone, hc⟩ := collapse_eq build ts
  · rw [hc]
    exact own t (by simp [ht])
  · rw [hc]
    exact node hone

theorem holds_collapse_and (σ : String → Bool) (ts : List Tree) :
    holds σ (collapse .and ts) = ts.all (holds σ) := by
  obtain ⟨t, rfl, h⟩ | ⟨-, h⟩ := collapse_eq .and ts <;> simp [h]

theorem holds_collapse_or (σ : String → Bool) (ts : List Tree) :
    holds σ (collapse .or ts) = ts.any (holds σ) := by
  obtain ⟨t, rfl, h⟩ | ⟨-, h⟩ := collapse_eq .or ts <;> simp [h]

@[simp] theorem holds_conj (σ : String → Bool) (ts : List Tree) :
    holds σ (conj ts) = ts.all (holds σ) := by
  rw [conj, holds_collapse_and]
  induction ts with
  | nil => rfl
  | cons t ts ih => simp [List.flatMap_cons, List.all_append, conjuncts_all, ih]

@[simp] theorem holds_disj (σ : String → Bool) (ts : List Tree) :
    holds σ (disj ts) = ts.any (holds σ) := by
  rw [disj, holds_collapse_or]
  induction ts with
  | nil => rfl
  | cons t ts ih => simp [List.flatMap_cons, List.any_append, disjuncts_any, ih]

end Tree

/-! Clauses -/

def Literal.holds (σ : String → Bool) (l : Literal) : Bool := σ l.name == l.positive

def Clause.holds (σ : String → Bool) (c : Clause) : Bool := c.any (Literal.holds σ)

@[simp] theorem Literal.holds_tree (σ : String → Bool) (l : Literal) :
    l.tree.holds σ = l.holds σ := by
  obtain ⟨positive, name⟩ := l
  cases positive <;> simp [Literal.tree, Literal.holds]

namespace Clause

@[simp] theorem mem_merge (left right : Clause) (l : Literal) :
    l ∈ left.merge right ↔ l ∈ left ∨ l ∈ right := by
  unfold merge
  induction right generalizing left with
  | nil => simp
  | cons r right ih =>
    rw [List.foldl_cons, ih]
    by_cases h : r ∈ left
    · simp only [h, if_true, List.mem_cons]
      constructor
      · rintro (h' | h')
        · exact .inl h'
        · exact .inr (.inr h')
      · rintro (h' | rfl | h')
        · exact .inl h'
        · exact .inl h
        · exact .inr h'
    · simp [h, or_assoc]

theorem holds_merge (σ : String → Bool) (left right : Clause) :
    (left.merge right).holds σ = (left.holds σ || right.holds σ) := by
  rw [Bool.eq_iff_iff]
  simp only [holds, List.any_eq_true, mem_merge, Bool.or_eq_true, or_and_right, exists_or]

end Clause

/-- Every clause of one list merged with every clause of another. -/
def combine (acc next : List Clause) : List Clause :=
  acc.flatMap fun left => next.map fun right => left.merge right

theorem distribute_eq (choices : List (List Clause)) :
    distribute choices = choices.foldl combine [[]] := rfl

theorem all_map_merge (σ : String → Bool) (left : Clause) (next : List Clause) :
    (next.map fun right => left.merge right).all (Clause.holds σ) =
      (left.holds σ || next.all (Clause.holds σ)) := by
  induction next with
  | nil => simp
  | cons right next ih =>
    rw [List.map_cons, List.all_cons, ih, Clause.holds_merge, List.all_cons]
    cases left.holds σ <;> simp

theorem all_combine (σ : String → Bool) (acc next : List Clause) :
    (combine acc next).all (Clause.holds σ) =
      (acc.all (Clause.holds σ) || next.all (Clause.holds σ)) := by
  unfold combine
  induction acc with
  | nil => simp
  | cons left acc ih =>
    rw [List.flatMap_cons, List.all_append, all_map_merge, ih, List.all_cons]
    cases next.all (Clause.holds σ) <;> simp

/-- A distribution of conjunctions of clauses is their disjunction. -/
theorem all_distribute (σ : String → Bool) (choices : List (List Clause)) :
    (distribute choices).all (Clause.holds σ) =
      choices.any fun clauses => clauses.all (Clause.holds σ) := by
  have run (acc : List Clause) : (choices.foldl combine acc).all (Clause.holds σ) =
      (acc.all (Clause.holds σ) || choices.any fun clauses => clauses.all (Clause.holds σ)) := by
    induction choices generalizing acc with
    | nil => simp
    | cons next choices ih =>
      rw [List.foldl_cons, ih, all_combine, List.any_cons, Bool.or_assoc]
  rw [distribute_eq, run]
  simp [Clause.holds]

namespace Tree

/-- Operands whose clauses mean their truth value under a sign. -/
theorem all_flatten_clausesEach {σ : String → Bool} {positive : Bool} {ts : List Tree}
    (h : ∀ t ∈ ts, (t.clauses positive).all (Clause.holds σ) = (t.holds σ == positive)) :
    (clausesEach positive ts).flatten.all (Clause.holds σ) =
      ts.all fun t => t.holds σ == positive := by
  induction ts with
  | nil => rfl
  | cons t ts ih =>
    rw [List.forall_mem_cons] at h
    rw [clausesEach, List.flatten_cons, List.all_append, h.1, ih h.2, List.all_cons]

theorem all_distribute_clausesEach {σ : String → Bool} {positive : Bool} {ts : List Tree}
    (h : ∀ t ∈ ts, (t.clauses positive).all (Clause.holds σ) = (t.holds σ == positive)) :
    (distribute (clausesEach positive ts)).all (Clause.holds σ) =
      ts.any fun t => t.holds σ == positive := by
  rw [all_distribute]
  induction ts with
  | nil => rfl
  | cons t ts ih =>
    rw [List.forall_mem_cons] at h
    rw [clausesEach, List.any_cons, h.1, ih h.2, List.any_cons]

/-- The clauses of a tree under a sign hold together if the tree has the truth value of the sign. -/
theorem clauses_all (σ : String → Bool) (positive : Bool) (t : Tree) :
    (t.clauses positive).all (Clause.holds σ) = (t.holds σ == positive) := by
  induction t generalizing positive with
  | symbol name => simp [clauses, Clause.holds, Literal.holds]
  | not t ih =>
    rw [clauses, ih, holds_not]
    cases t.holds σ <;> cases positive <;> rfl
  | and ts ih =>
    cases positive with
    | true =>
      rw [clauses, if_pos rfl, all_flatten_clausesEach fun t ht => ih t ht true]
      simp
    | false =>
      rw [clauses, if_neg (by simp), all_distribute_clausesEach fun t ht => ih t ht false]
      simp [List.all_eq_not_any_not]
  | or ts ih =>
    cases positive with
    | true =>
      rw [clauses, if_pos rfl, all_distribute_clausesEach fun t ht => ih t ht true]
      simp
    | false =>
      rw [clauses, if_neg (by simp), all_flatten_clausesEach fun t ht => ih t ht false]
      simp [List.any_eq_not_all_not]

@[simp] theorem holds_toCnf (σ : String → Bool) (t : Tree) : t.toCnf.holds σ = t.holds σ := by
  have clause (c : Clause) : (disj (c.map Literal.tree)).holds σ = c.holds σ := by
    simp [Clause.holds, List.any_map, Function.comp_def]
  have h := clauses_all σ true t
  simp only [toCnf, holds_conj, List.all_map, Function.comp_def, clause]
  simpa using h

theorem holds_normal (σ : String → Bool) (t : Tree) : t.normal.holds σ = t.holds σ := by
  unfold normal
  split
  · rfl
  · exact holds_toCnf σ t

end Tree
end RecordGraph.Algebra
