import Mathlib.Data.List.Nodup
import RecordGraph.Proofs.Algebra.Conjunctive

/-!
The normal forms of any tree, flat or not, with empty operators or without: both mean what the tree means
and name no other symbols. The conjunctive form repeats no literal in a clause, is the same whether or
not negations were pushed inward first, and is its own conjunctive form.
-/
namespace RecordGraph.Algebra

/-! Clauses without repetitions -/

namespace Clause

/-- The clause with a literal, at its end if it is new. -/
def push (clause : Clause) (l : Literal) : Clause := if l ∈ clause then clause else clause ++ [l]

theorem merge_eq (left right : Clause) : left.merge right = right.foldl push left := rfl

theorem merge_push (left right : Clause) (l : Literal) :
    left.merge (right.push l) = (left.merge right).push l := by
  by_cases h : l ∈ right
  · have known : l ∈ left.merge right := (mem_merge left right l).mpr (.inr h)
    rw [push, if_pos h, push, if_pos known]
  · rw [push, if_neg h, merge_eq, merge_eq, List.foldl_append, List.foldl_cons, List.foldl_nil]

theorem merge_assoc (first second third : Clause) :
    (first.merge second).merge third = first.merge (second.merge third) := by
  induction third generalizing second with
  | nil => rfl
  | cons l third ih =>
    calc (first.merge second).merge (l :: third)
        = ((first.merge second).push l).merge third := rfl
      _ = (first.merge (second.push l)).merge third := by rw [merge_push]
      _ = first.merge ((second.push l).merge third) := ih (second.push l)
      _ = first.merge (second.merge (l :: third)) := rfl

theorem nodup_push {clause : Clause} (h : clause.Nodup) (l : Literal) : (clause.push l).Nodup := by
  unfold push
  split
  · exact h
  · rename_i fresh
    rw [← List.concat_eq_append]
    exact h.concat fresh

theorem nodup_merge {left : Clause} (h : left.Nodup) (right : Clause) : (left.merge right).Nodup := by
  induction right generalizing left with
  | nil => exact h
  | cons l right ih => exact ih (nodup_push h l)

/-- Literals that are all new are appended. -/
theorem merge_of_nodup {left right : Clause} (h : (left ++ right).Nodup) :
    left.merge right = left ++ right := by
  induction right generalizing left with
  | nil => rw [List.append_nil, merge_eq, List.foldl_nil]
  | cons l right ih =>
    have fresh : l ∉ left := fun hl => List.disjoint_of_nodup_append h hl List.mem_cons_self
    rw [List.append_cons] at h
    rw [List.append_cons, ← ih h, merge_eq, List.foldl_cons, push, if_neg fresh, merge_eq]

theorem nil_merge {c : Clause} (h : c.Nodup) : merge [] c = c := by
  have distinct : ([] ++ c).Nodup := h
  exact merge_of_nodup distinct

end Clause

/-- No clause repeats a literal. -/
def Distinct (cs : List Clause) : Prop := ∀ c ∈ cs, c.Nodup

theorem distinct_combine {acc : List Clause} (h : Distinct acc) (next : List Clause) :
    Distinct (combine acc next) := by
  intro c hc
  obtain ⟨left, hleft, hc⟩ := List.mem_flatMap.mp hc
  obtain ⟨right, -, rfl⟩ := List.mem_map.mp hc
  exact Clause.nodup_merge (h left hleft) right

theorem distinct_foldl {acc : List Clause} (h : Distinct acc) (choices : List (List Clause)) :
    Distinct (choices.foldl combine acc) := by
  induction choices generalizing acc with
  | nil => exact h
  | cons next choices ih => exact ih (distinct_combine h next)

/-- Distributing merges clauses into an empty one, so that it does not matter what they repeat. -/
theorem distinct_distribute (choices : List (List Clause)) : Distinct (distribute choices) :=
  distinct_foldl (by simp [Distinct]) choices

theorem distinct_flatten {choices : List (List Clause)} (h : ∀ cs ∈ choices, Distinct cs) :
    Distinct choices.flatten := by
  intro c hc
  obtain ⟨cs, hcs, hc⟩ := List.mem_flatten.mp hc
  exact h cs hcs c hc

/-! Distributing part by part -/

theorem combine_assoc (first second third : List Clause) :
    combine (combine first second) third = combine first (combine second third) := by
  simp only [combine, List.flatMap_assoc, List.map_flatMap, List.flatMap_map, List.map_map,
    Function.comp_def, Clause.merge_assoc]

theorem combine_nil (acc : List Clause) : combine acc [[]] = acc := by
  simp [combine, Clause.merge]

theorem nil_combine {cs : List Clause} (h : Distinct cs) : combine [[]] cs = cs := by
  rw [combine, List.flatMap_singleton]
  conv_rhs => rw [← List.map_id cs]
  exact List.map_congr_left fun c hc => Clause.nil_merge (h c hc)

/-- What was distributed before is combined with the distribution of the rest. -/
theorem foldl_combine (acc : List Clause) (choices : List (List Clause)) :
    choices.foldl combine acc = combine acc (distribute choices) := by
  induction choices generalizing acc with
  | nil => exact (combine_nil acc).symm
  | cons next choices ih =>
    rw [distribute_eq, List.foldl_cons, List.foldl_cons, ih, ih (combine [[]] next), ← combine_assoc,
      ← combine_assoc acc, combine_nil]

/-- One literal from each choice makes one clause. -/
theorem foldl_combine_literals (left c : Clause) :
    (c.map fun l => [[l]]).foldl combine [left] = [left.merge c] := by
  induction c generalizing left with
  | nil => rfl
  | cons l c ih => exact ih (left.push l)

theorem distribute_literals {c : Clause} (h : c.Nodup) : distribute (c.map fun l => [[l]]) = [c] := by
  rw [distribute_eq, foldl_combine_literals, Clause.nil_merge h]

namespace Tree

/-! Clauses of spliced trees -/

theorem distinct_clauses (t : Tree) (positive : Bool) : Distinct (t.clauses positive) := by
  induction t generalizing positive with
  | symbol name => simp [clauses, Distinct]
  | not t ih => exact ih !positive
  | and ts ih =>
    rw [clauses]
    split
    · exact distinct_flatten (forall_clausesEach fun t ht => ih t ht positive)
    · exact distinct_distribute _
  | or ts ih =>
    rw [clauses]
    split
    · exact distinct_distribute _
    · exact distinct_flatten (forall_clausesEach fun t ht => ih t ht positive)

theorem clauses_and (ts : List Tree) : (Tree.and ts).clauses true = ts.flatMap (clauses true) := by
  rw [clauses, if_pos rfl, clausesEach_eq, List.flatMap_def]

theorem clauses_or (ts : List Tree) :
    (Tree.or ts).clauses true = distribute (ts.map (clauses true)) := by
  rw [clauses, if_pos rfl, clausesEach_eq]

/-- Splicing the operands of conjunctions does not change the clauses. -/
theorem clauses_conj (ts : List Tree) : (conj ts).clauses true = ts.flatMap (clauses true) := by
  have own (t : Tree) : t.conjuncts.flatMap (clauses true) = t.clauses true := by
    cases t with
    | and us => exact (clauses_and us).symm
    | _ => exact List.flatMap_singleton ..
  have spliced : (ts.flatMap conjuncts).flatMap (clauses true) = ts.flatMap (clauses true) := by
    rw [List.flatMap_assoc]
    simp only [own]
  obtain ⟨t, ht, hc⟩ | ⟨-, hc⟩ := collapse_eq Tree.and (ts.flatMap conjuncts)
  · rw [conj, hc, ← spliced, ht, List.flatMap_singleton]
  · rw [conj, hc, clauses_and, spliced]

/-- Nor does splicing those of disjunctions. -/
theorem clauses_disj (ts : List Tree) :
    (disj ts).clauses true = distribute (ts.map (clauses true)) := by
  have own (acc : List Clause) (t : Tree) :
      (t.disjuncts.map (clauses true)).foldl combine acc = combine acc (t.clauses true) := by
    cases t with
    | or us => rw [disjuncts, foldl_combine, clauses_or]
    | _ => rfl
  have spliced (acc : List Clause) : ((ts.flatMap disjuncts).map (clauses true)).foldl combine acc =
      (ts.map (clauses true)).foldl combine acc := by
    induction ts generalizing acc with
    | nil => rfl
    | cons t ts ih =>
      rw [List.flatMap_cons, List.map_append, List.foldl_append, own, ih, List.map_cons, List.foldl_cons]
  obtain ⟨t, ht, hc⟩ | ⟨-, hc⟩ := collapse_eq Tree.or (ts.flatMap disjuncts)
  · rw [disj, hc, distribute_eq, ← spliced, ht]
    exact (nil_combine (distinct_clauses t true)).symm
  · rw [disj, hc, clauses_or, distribute_eq, spliced, distribute_eq]

theorem clauses_tree (l : Literal) : l.tree.clauses true = [[l]] := by
  obtain ⟨positive, name⟩ := l
  cases positive <;> rfl

/-- The tree of a list of clauses. -/
def ofClauses (cs : List Clause) : Tree := conj (cs.map fun c => disj (c.map Literal.tree))

theorem toCnf_def (t : Tree) : t.toCnf = ofClauses (t.clauses true) := rfl

/-- Clauses that repeat no literal are those of their tree. -/
theorem clauses_ofClauses {cs : List Clause} (h : Distinct cs) : (ofClauses cs).clauses true = cs := by
  have one (c : Clause) (hc : c ∈ cs) : (disj (c.map Literal.tree)).clauses true = [c] := by
    rw [clauses_disj, List.map_map]
    simp only [Function.comp_def, clauses_tree]
    exact distribute_literals (h c hc)
  rw [ofClauses, clauses_conj, List.flatMap_map, List.flatMap_congr one]
  simp

theorem toCnf_toCnf (t : Tree) : t.toCnf.toCnf = t.toCnf := by
  rw [toCnf_def t, toCnf_def, clauses_ofClauses (distinct_clauses t true)]

/-! Negations pushed inward -/

theorem nnfAll_eq (positive : Bool) (ts : List Tree) : nnfAll positive ts = ts.map (nnf positive) := by
  induction ts with
  | nil => rfl
  | cons t ts ih => rw [nnfAll, ih, List.map_cons]

theorem nnf_and (positive : Bool) (ts : List Tree) : (Tree.and ts).nnf positive =
    if positive then conj (ts.map (nnf positive)) else disj (ts.map (nnf positive)) := by
  rw [nnf, nnfAll_eq]

theorem nnf_or (positive : Bool) (ts : List Tree) : (Tree.or ts).nnf positive =
    if positive then disj (ts.map (nnf positive)) else conj (ts.map (nnf positive)) := by
  rw [nnf, nnfAll_eq]

/-- What has the clauses of the operands under a sign has them one by one. -/
theorem map_clauses {f : Tree → Tree} {positive : Bool} {ts : List Tree}
    (h : ∀ t ∈ ts, (f t).clauses true = t.clauses positive) :
    (ts.map f).map (clauses true) = clausesEach positive ts := by
  rw [clausesEach_eq, List.map_map]
  exact List.map_congr_left h

/-- The clauses of a tree under a sign are those of its normal form under that sign. -/
theorem clauses_nnf (t : Tree) (positive : Bool) : (t.nnf positive).clauses true = t.clauses positive := by
  induction t generalizing positive with
  | symbol name => cases positive <;> rfl
  | not t ih => exact ih !positive
  | and ts ih =>
    have each := map_clauses fun t ht => ih t ht positive
    rw [nnf_and, clauses]
    split
    · rw [clauses_conj, List.flatMap_def, each]
    · rw [clauses_disj, each]
  | or ts ih =>
    have each := map_clauses fun t ht => ih t ht positive
    rw [nnf_or, clauses]
    split
    · rw [clauses_disj, each]
    · rw [clauses_conj, List.flatMap_def, each]

/-- Pushing negations inward first leaves the conjunctive form as it is. -/
theorem toCnf_toNnf (t : Tree) : t.toNnf.toCnf = t.toCnf := by
  rw [toCnf_def, toNnf, clauses_nnf, ← toCnf_def]

theorem holds_toNnf (σ : String → Bool) (t : Tree) : t.toNnf.holds σ = t.holds σ := by
  rw [← holds_toCnf, toCnf_toNnf, holds_toCnf]

theorem names_conj (ts : List Tree) : (conj ts).names = ts.flatMap names := by
  have own (t : Tree) : t.conjuncts.flatMap names = t.names := by
    cases t with
    | and us => exact (names_and us).symm
    | _ => exact List.flatMap_singleton ..
  rw [conj, names_collapse names_and, List.flatMap_assoc]
  simp only [own]

theorem names_disj (ts : List Tree) : (disj ts).names = ts.flatMap names := by
  have own (t : Tree) : t.disjuncts.flatMap names = t.names := by
    cases t with
    | or us => exact (names_or us).symm
    | _ => exact List.flatMap_singleton ..
  rw [disj, names_collapse names_or, List.flatMap_assoc]
  simp only [own]

/-- The symbols of the normal form are those of the tree, in the same order. -/
theorem names_nnf (t : Tree) (positive : Bool) : (t.nnf positive).names = t.names := by
  induction t generalizing positive with
  | symbol name => cases positive <;> rfl
  | not t ih => exact ih !positive
  | and ts ih =>
    rw [nnf_and, names_and, ← List.flatMap_congr fun t ht => ih t ht positive, ← List.flatMap_map]
    split
    · exact names_conj _
    · exact names_disj _
  | or ts ih =>
    rw [nnf_or, names_or, ← List.flatMap_congr fun t ht => ih t ht positive, ← List.flatMap_map]
    split
    · exact names_disj _
    · exact names_conj _

/-- Negations stand before symbols only, and no operator is an operand of its own kind. -/
inductive IsNnf : Tree → Prop where
  | symbol (name : String) : IsNnf (.symbol name)
  | negated (name : String) : IsNnf (.not (.symbol name))
  | and {ts : List Tree} (own : ∀ us, Tree.and us ∉ ts) (h : ∀ t ∈ ts, IsNnf t) : IsNnf (.and ts)
  | or {ts : List Tree} (own : ∀ us, Tree.or us ∉ ts) (h : ∀ t ∈ ts, IsNnf t) : IsNnf (.or ts)

namespace IsNnf

theorem conjuncts {t : Tree} (h : t.IsNnf) :
    ∀ u ∈ t.conjuncts, u.IsNnf ∧ ∀ us, u ≠ .and us := by
  cases h with
  | and own h => exact fun u hu => ⟨h u hu, fun us heq => own us (heq ▸ hu)⟩
  | symbol name => simpa [Tree.conjuncts] using IsNnf.symbol name
  | negated name => simpa [Tree.conjuncts] using IsNnf.negated name
  | or own h => simpa [Tree.conjuncts] using IsNnf.or own h

theorem disjuncts {t : Tree} (h : t.IsNnf) :
    ∀ u ∈ t.disjuncts, u.IsNnf ∧ ∀ us, u ≠ .or us := by
  cases h with
  | or own h => exact fun u hu => ⟨h u hu, fun us heq => own us (heq ▸ hu)⟩
  | symbol name => simpa [Tree.disjuncts] using IsNnf.symbol name
  | negated name => simpa [Tree.disjuncts] using IsNnf.negated name
  | and own h => simpa [Tree.disjuncts] using IsNnf.and own h

variable {ts : List Tree}

theorem conj (h : ∀ t ∈ ts, t.IsNnf) : (conj ts).IsNnf := by
  have spliced : ∀ u ∈ ts.flatMap Tree.conjuncts, u.IsNnf ∧ ∀ us, u ≠ .and us :=
    List.forall_mem_flatMap.mpr fun t ht => (h t ht).conjuncts
  have each := fun u hu => (spliced u hu).1
  exact collapse_cases each fun _ => .and (fun us hus => (spliced _ hus).2 us rfl) each

theorem disj (h : ∀ t ∈ ts, t.IsNnf) : (disj ts).IsNnf := by
  have spliced : ∀ u ∈ ts.flatMap Tree.disjuncts, u.IsNnf ∧ ∀ us, u ≠ .or us :=
    List.forall_mem_flatMap.mpr fun t ht => (h t ht).disjuncts
  have each := fun u hu => (spliced u hu).1
  exact collapse_cases each fun _ => .or (fun us hus => (spliced _ hus).2 us rfl) each

end IsNnf

theorem isNnf_nnf (t : Tree) (positive : Bool) : (t.nnf positive).IsNnf := by
  induction t generalizing positive with
  | symbol name =>
    cases positive
    · exact .negated name
    · exact .symbol name
  | not t ih => exact ih !positive
  | and ts ih =>
    have each := List.forall_mem_map.mpr fun t ht => ih t ht positive
    rw [nnf_and]
    split
    · exact .conj each
    · exact .disj each
  | or ts ih =>
    have each := List.forall_mem_map.mpr fun t ht => ih t ht positive
    rw [nnf_or]
    split
    · exact .disj each
    · exact .conj each

/-! Clauses as parts of the conjunctive form -/

theorem tree_injective : Function.Injective Literal.tree := by
  rintro ⟨positive, name⟩ ⟨positive', name'⟩ h
  cases positive <;> cases positive' <;> simp_all [Literal.tree]

theorem disjuncts_clause (c : Clause) :
    (disj (c.map Literal.tree)).disjuncts = c.map Literal.tree := by
  rw [disj_literals]
  obtain ⟨t, ht, hc⟩ | ⟨-, hc⟩ := collapse_eq Tree.or (c.map Literal.tree)
  · have literal : t ∈ c.map Literal.tree := ht ▸ List.mem_singleton_self t
    obtain ⟨l, -, rfl⟩ := List.mem_map.mp literal
    rw [hc, ht, disjuncts_of_isLiteral (isLiteral_tree l)]
  · rw [hc, disjuncts]

theorem conjuncts_toCnf (t : Tree) :
    t.toCnf.conjuncts = (t.clauses true).map fun c => disj (c.map Literal.tree) := by
  rw [toCnf_eq]
  obtain ⟨u, hu, hc⟩ | ⟨-, hc⟩ := collapse_eq Tree.and
    ((t.clauses true).map fun c => disj (c.map Literal.tree))
  · have clause : u ∈ (t.clauses true).map fun c => disj (c.map Literal.tree) :=
      hu ▸ List.mem_singleton_self u
    obtain ⟨c, -, rfl⟩ := List.mem_map.mp clause
    rw [hc, hu, conjuncts_of_isClause (isClause_disj c)]
  · rw [hc, conjuncts]

theorem nodup_literals (t : Tree) : ∀ c ∈ t.toCnf.conjuncts, c.disjuncts.Nodup := by
  rw [conjuncts_toCnf, List.forall_mem_map]
  intro c hc
  rw [disjuncts_clause]
  exact (distinct_clauses t true c hc).map tree_injective

/-- Both normal forms of a tree mean what the tree means and name no symbol that it does not name. In one
of them negations stand before symbols only and operators alternate; the other is in conjunctive form,
repeats no literal in a clause and is not changed by being brought into conjunctive form again. -/
theorem normalForms_equivalent (t : Tree) :
    (∀ σ, t.toNnf.holds σ = t.holds σ ∧ t.toCnf.holds σ = t.holds σ) ∧
    (t.toNnf.names ⊆ t.names ∧ t.toCnf.names ⊆ t.names) ∧
    t.toNnf.IsNnf ∧
    t.toCnf.isCnf ∧ (∀ clause ∈ t.toCnf.conjuncts, clause.disjuncts.Nodup) ∧
    t.toCnf.toCnf = t.toCnf := by
  refine ⟨fun σ => ⟨holds_toNnf σ t, holds_toCnf σ t⟩, ⟨?_, ?_⟩, isNnf_nnf t true, isCnf_toCnf t,
    nodup_literals t, toCnf_toCnf t⟩
  · rw [toNnf, names_nnf]
    exact List.Subset.refl _
  · exact names_toCnf fun name hname => hname

example : (Tree.or [.symbol "a", .and [.symbol "a", .not (.symbol "b")]]).toCnf =
    .and [.symbol "a", .or [.symbol "a", .not (.symbol "b")]] := rfl

end Tree
end RecordGraph.Algebra
