import RecordGraph.Proofs.Algebra.Meaning
import RecordGraph.Proofs.Outcome

/-!
The width of boolean trees: parsed trees, and what the splicing constructors make of wide trees, have
at least two operands under every operator.
-/
namespace RecordGraph.Algebra

namespace Tree

/-- Every operator, at any depth, has at least two operands. -/
inductive Wide : Tree → Prop where
  | symbol (name : String) : Wide (.symbol name)
  | not {t : Tree} (h : Wide t) : Wide (.not t)
  | and {ts : List Tree} (two : 2 ≤ ts.length) (h : ∀ t ∈ ts, Wide t) : Wide (.and ts)
  | or {ts : List Tree} (two : 2 ≤ ts.length) (h : ∀ t ∈ ts, Wide t) : Wide (.or ts)

theorem Wide.conjuncts {t : Tree} (h : Wide t) :
    t.conjuncts ≠ [] ∧ ∀ u ∈ t.conjuncts, Wide u := by
  cases h with
  | and two h => exact ⟨List.ne_nil_of_length_pos (Nat.lt_of_lt_of_le Nat.two_pos two), h⟩
  | symbol name => simpa [Tree.conjuncts] using Wide.symbol name
  | not h => simpa [Tree.conjuncts] using Wide.not h
  | or two h => simpa [Tree.conjuncts] using Wide.or two h

theorem Wide.disjuncts {t : Tree} (h : Wide t) :
    t.disjuncts ≠ [] ∧ ∀ u ∈ t.disjuncts, Wide u := by
  cases h with
  | or two h => exact ⟨List.ne_nil_of_length_pos (Nat.lt_of_lt_of_le Nat.two_pos two), h⟩
  | symbol name => simpa [Tree.disjuncts] using Wide.symbol name
  | not h => simpa [Tree.disjuncts] using Wide.not h
  | and two h => simpa [Tree.disjuncts] using Wide.and two h

/-- Splicing gives at least one operand, each of them wide. -/
theorem wide_flatMap {f : Tree → List Tree} {ts : List Tree} (some : ts ≠ [])
    (h : ∀ t ∈ ts, f t ≠ [] ∧ ∀ u ∈ f t, Wide u) :
    ts.flatMap f ≠ [] ∧ ∀ u ∈ ts.flatMap f, Wide u := by
  constructor
  · obtain ⟨t, ht⟩ := List.exists_mem_of_ne_nil ts some
    intro nothing
    exact (h t ht).1 (List.flatMap_eq_nil_iff.mp nothing t ht)
  · intro u hu
    obtain ⟨t, ht, hut⟩ := List.mem_flatMap.mp hu
    exact (h t ht).2 u hut

theorem two_le_of_ne {ts : List Tree} (some : ts ≠ []) (h : ts.length ≠ 1) : 2 ≤ ts.length := by
  have := List.length_pos_iff.mpr some
  omega

theorem wide_collapse {build : List Tree → Tree}
    (make : ∀ {us : List Tree}, 2 ≤ us.length → (∀ u ∈ us, Wide u) → Wide (build us))
    {ts : List Tree} (h : ts ≠ [] ∧ ∀ t ∈ ts, Wide t) : Wide (collapse build ts) :=
  collapse_cases h.2 fun hone => make (two_le_of_ne h.1 hone) h.2

theorem Wide.conj {ts : List Tree} (some : ts ≠ []) (h : ∀ t ∈ ts, Wide t) : Wide (conj ts) :=
  wide_collapse .and (wide_flatMap some fun t ht => (h t ht).conjuncts)

theorem Wide.disj {ts : List Tree} (some : ts ≠ []) (h : ∀ t ∈ ts, Wide t) : Wide (disj ts) :=
  wide_collapse .or (wide_flatMap some fun t ht => (h t ht).disjuncts)

end Tree

/-! Parsing -/

/-- Whatever a reader reads satisfies `p`. -/
def Reads {α : Type} (p : α → Prop) (reader : Reader α) : Prop :=
  ∀ tokens t rest, reader tokens = .ok (t, rest) → p t

/-- A chain with fuel reads an operand. It ends there, or a separator follows and a chain again. -/
theorem chain_succ {separator : Token} {operand : Reader Tree} {fuel : Nat}
    {tokens rest : List Token} {ts : List Tree}
    (hr : chain separator operand (fuel + 1) tokens = .ok (ts, rest)) :
    ∃ t after, operand tokens = .ok (t, after) ∧
      ((ts = [t] ∧ rest = after ∧ rest.head? ≠ some separator) ∨
        ∃ more us, after = separator :: more ∧ chain separator operand fuel more = .ok (us, rest) ∧
          ts = t :: us) := by
  rw [chain] at hr
  obtain ⟨⟨t, after⟩, ht, hr⟩ := Except.monad_bind_eq_ok.mp hr
  refine ⟨t, after, ht, ?_⟩
  dsimp only at hr
  split at hr
  · rename_i next more
    split at hr
    · rename_i hnext
      obtain ⟨⟨us, _⟩, hus, hr⟩ := Except.monad_bind_eq_ok.mp hr
      cases hr
      exact .inr ⟨more, us, by rw [hnext], hus, rfl⟩
    · rename_i hnext
      cases hr
      exact .inl ⟨rfl, rfl, fun h => hnext (Option.some.inj h)⟩
  · cases hr
    exact .inl ⟨rfl, rfl, by simp⟩

theorem reads_chain {separator : Token} {operand : Reader Tree} (h : Reads Tree.Wide operand)
    (fuel : Nat) : Reads (fun ts => ∀ t ∈ ts, Tree.Wide t) (chain separator operand fuel) := by
  induction fuel with
  | zero =>
    intro tokens ts rest hr
    obtain ⟨rfl, -⟩ : [] = ts ∧ tokens = rest := by simpa [chain] using hr
    simp
  | succ fuel ih =>
    intro tokens ts rest hr
    obtain ⟨t, after, ht, ⟨rfl, -⟩ | ⟨more, us, -, hus, rfl⟩⟩ := chain_succ hr
    · simpa using h _ _ _ ht
    · exact List.forall_mem_cons.mpr ⟨h _ _ _ ht, ih _ _ _ hus⟩

theorem chain_ne_nil {separator : Token} {operand : Reader Tree} {fuel : Nat}
    {tokens rest : List Token} {ts : List Tree}
    (hr : chain separator operand (fuel + 1) tokens = .ok (ts, rest)) : ts ≠ [] := by
  obtain ⟨t, after, -, ⟨rfl, -⟩ | ⟨more, us, -, -, rfl⟩⟩ := chain_succ hr <;> simp

theorem reads_conjunction {operand : Reader Tree} (h : Reads Tree.Wide operand) :
    Reads Tree.Wide (conjunction operand) := by
  intro tokens t rest hr
  obtain ⟨⟨ts, _⟩, hts, hr⟩ := Except.monad_bind_eq_ok.mp hr
  cases hr
  exact .conj (chain_ne_nil hts) (reads_chain h _ _ _ _ hts)

theorem reads_disjunction {operand : Reader Tree} (h : Reads Tree.Wide operand) :
    Reads Tree.Wide (disjunction operand) := by
  intro tokens t rest hr
  obtain ⟨⟨ts, _⟩, hts, hr⟩ := Except.monad_bind_eq_ok.mp hr
  cases hr
  exact .disj (chain_ne_nil hts) (reads_chain (reads_conjunction h) _ _ _ _ hts)

theorem reads_unary (depth : Nat) : Reads Tree.Wide (unary depth) := by
  induction depth with
  | zero =>
    intro tokens t rest hr
    rcases tokens with _ | ⟨token, tokens⟩
    · simp [unary] at hr
    · cases token <;> simp [unary] at hr
      rw [← hr.1]
      exact .symbol _
  | succ depth ih =>
    intro tokens t rest hr
    rcases tokens with _ | ⟨token, tokens⟩
    · simp [unary] at hr
    · cases token <;> simp only [unary, reduceCtorEq] at hr
      case symbol name =>
        obtain ⟨rfl, -⟩ : Tree.symbol name = t ∧ tokens = rest := by simpa using hr
        exact .symbol name
      case not =>
        obtain ⟨⟨u, _⟩, hu, hr⟩ := Except.map_eq_ok.mp hr
        obtain ⟨rfl, -⟩ : Tree.not u = t ∧ _ = rest := by simpa using hr
        exact .not (ih _ _ _ hu)
      case lparen =>
        obtain ⟨⟨u, _⟩, hu, hr⟩ := Except.monad_bind_eq_ok.mp hr
        obtain ⟨_, -, hr⟩ := Except.monad_bind_eq_ok.mp hr
        obtain ⟨rfl, -⟩ : u = t ∧ _ = rest := by simpa [Except.monad_pure] using hr
        exact reads_disjunction ih _ _ _ hu

/-- Parsed trees are wide. -/
theorem wide_of_parse {text : String} {tree : Tree} (h : parse text = .ok tree) : tree.Wide := by
  unfold parse at h
  split at h
  · cases h
  · obtain ⟨⟨t, rest⟩, ht, h⟩ := Except.monad_bind_eq_ok.mp h
    have hwide : t.Wide := reads_disjunction (reads_unary maxDepth) _ _ _ ht
    dsimp only at h
    split at h
    · cases h
      exact hwide
    · cases h
      exact hwide
    · cases h

end RecordGraph.Algebra
