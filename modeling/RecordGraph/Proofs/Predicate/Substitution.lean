import RecordGraph.Proofs.Predicate.Resolve

/-!
What resolving substitutes. An expression is code by its references and its keys; resolving adds none
of its own, and what it reads from the request and the query stays data where it is a scalar. Lists and
maps that are read are put in as they are, with the references and keys that they happen to spell.
-/
namespace RecordGraph

/-- What an expression does not treat as data: a reference, or the key of a map. -/
inductive Code where
  | reference (s : String)
  | key (k : String)
deriving DecidableEq

mutual
/-- The references and keys of an expression, in order. -/
def Value.code : Value → List Code
  | .str s => if s.isEmpty || (Expr.unquoted? s).isSome then [] else [.reference s]
  | .arr xs => codeOfItems xs
  | .obj es => codeOfEntries es
  | _ => []

def codeOfItems : List Value → List Code
  | [] => []
  | x :: xs => x.code ++ codeOfItems xs

def codeOfEntries : List (String × Value) → List Code
  | [] => []
  | (k, x) :: es => .key k :: (x.code ++ codeOfEntries es)
end

/-- An expression that stands for a value as data: without code, and with this value everywhere. -/
def Value.StandsFor (w v : Value) : Prop := w.code = [] ∧ ∀ c, Expr.eval c w = .ok v

namespace Value
variable {c : Code} {v : Value}

theorem mem_code_arr {xs : List Value} : c ∈ (Value.arr xs).code ↔ ∃ x ∈ xs, c ∈ x.code := by
  rw [code]
  induction xs with
  | nil => simp [codeOfItems]
  | cons x xs ih => simp [codeOfItems, ih]

theorem mem_code_obj {es : List (String × Value)} :
    c ∈ (Value.obj es).code ↔ ∃ e ∈ es, c = .key e.1 ∨ c ∈ e.2.code := by
  rw [code]
  induction es with
  | nil => simp [codeOfEntries]
  | cons e es ih => simp [codeOfEntries, ih, or_assoc]

theorem code_arr_eq_nil {xs : List Value} : (Value.arr xs).code = [] ↔ ∀ x ∈ xs, x.code = [] := by
  simp only [List.eq_nil_iff_forall_not_mem, mem_code_arr]
  exact ⟨fun h x hx c hc => h c ⟨x, hx, hc⟩, fun h c ⟨x, hx, hc⟩ => h x hx c hc⟩

theorem code_obj_eq_nil {es : List (String × Value)} : (Value.obj es).code = [] ↔ es = [] := by
  cases es <;> simp [code, codeOfEntries]

theorem code_str_eq_nil {s : String} :
    (Value.str s).code = [] ↔ s = "" ∨ ∃ inner, Expr.unquoted? s = some inner := by
  simp [code, Option.isSome_iff_exists, or_iff_not_imp_left]

theorem code_quote (s : String) : (Value.str (Expr.quote s)).code = [] :=
  code_str_eq_nil.mpr (.inr ⟨s, Expr.unquoted?_quote s⟩)

/-- Literals are data. -/
theorem code_of_isLiteral (h : Expr.isLiteral v) : v.code = [] := by
  induction v with
  | str s => exact code_str_eq_nil.mpr (.inr (Option.isSome_iff_exists.mp h))
  | arr xs ih =>
    rw [Expr.isLiteral, Expr.allLiteral_eq, List.all_eq_true] at h
    exact code_arr_eq_nil.mpr fun x hx => ih x hx (h x hx)
  | obj es => cases h
  | null | bool | num => rfl

/-! Values that stay data -/

mutual
/-- Without text, but for empty ones, and without maps that have entries. -/
def isInert : Value → Bool
  | .str s => s.isEmpty
  | .arr xs => allInert xs
  | .obj es => es.isEmpty
  | _ => true

def allInert : List Value → Bool
  | [] => true
  | x :: xs => isInert x && allInert xs
end

mutual
/-- Without maps that have entries. -/
def isMapless : Value → Bool
  | .arr xs => allMapless xs
  | .obj es => es.isEmpty
  | _ => true

def allMapless : List Value → Bool
  | [] => true
  | x :: xs => isMapless x && allMapless xs
end

theorem allInert_eq (xs : List Value) : allInert xs = xs.all isInert := by
  induction xs with
  | nil => rfl
  | cons x xs ih => rw [allInert, ih, List.all_cons]

theorem allMapless_eq (xs : List Value) : allMapless xs = xs.all isMapless := by
  induction xs with
  | nil => rfl
  | cons x xs ih => rw [allMapless, ih, List.all_cons]

theorem eval_arr_eq_ok {xs ys : List Value} {d : Value} :
    Expr.eval d (.arr xs) = .ok (.arr ys) ↔
      List.Forall₂ (fun x y => Expr.eval d x = .ok y) xs ys := by
  rw [Expr.eval, Except.map_eq_ok, ← Expr.evalItems_eq_ok]
  simp

theorem unquoted?_ne_self {s : String} : Expr.unquoted? s ≠ some s := by
  intro h
  unfold Expr.unquoted? at h
  split at h
  · rename_i c d rest hs
    split at h
    · have hlist := congrArg String.toList (Option.some.inj h)
      have hlength := congrArg List.length hlist
      simp only [String.toList_ofList, List.length_dropLast, hs, List.length_cons] at hlength
      omega
    · cases h
  · cases h

/-- As it is, a value stands for itself only without text and without keys. -/
theorem standsFor_self : v.StandsFor v ↔ v.isInert := by
  induction v with
  | null | bool | num => simp [StandsFor, code, isInert, Expr.eval]
  | str s =>
    by_cases hs : s = ""
    · subst hs
      simp [StandsFor, code, isInert, Expr.eval, Expr.evalText, Expr.unquoted?]
    · have hcode : (Value.str s).code = [] → ∃ inner, Expr.unquoted? s = some inner := by
        simp [code_str_eq_nil, hs]
      have hempty : (Value.str s).isInert = false := by simpa [isInert] using hs
      rw [hempty, Bool.false_eq_true, iff_false]
      rintro ⟨hnil, heval⟩
      obtain ⟨inner, hinner⟩ := hcode hnil
      have hself : Value.str inner = .str s := by
        simpa [Expr.eval, Expr.evalText, hinner] using heval .null
      exact unquoted?_ne_self (hinner.trans (by rw [Value.str.inj hself]))
  | arr xs ih =>
    rw [isInert, allInert_eq, List.all_eq_true]
    simp only [StandsFor, code_arr_eq_nil, eval_arr_eq_ok, List.forall₂_same] at ih ⊢
    constructor
    · rintro ⟨hcode, heval⟩ x hx
      exact (ih x hx).mp ⟨hcode x hx, fun d => heval d x hx⟩
    · intro h
      exact ⟨fun x hx => ((ih x hx).mpr (h x hx)).1, fun d x hx => ((ih x hx).mpr (h x hx)).2 d⟩
  | obj es =>
    cases es with
    | nil => simp [StandsFor, code, codeOfEntries, isInert, Expr.eval]
    | cons e es => simp [StandsFor, code_obj_eq_nil, isInert]

theorem makeLiteralAll_eq (xs : List Value) :
    Expr.makeLiteralAll xs = xs.map Expr.makeLiteral := by
  induction xs with
  | nil => rfl
  | cons x xs ih => rw [Expr.makeLiteralAll, ih, List.map_cons]

theorem code_makeLiteral : (Expr.makeLiteral v).code = [] ↔ v.isMapless := by
  induction v with
  | null | bool | num => simp [Expr.makeLiteral, code, isMapless]
  | str s => simp [Expr.makeLiteral, code_quote, isMapless]
  | arr xs ih =>
    rw [Expr.makeLiteral, makeLiteralAll_eq, code_arr_eq_nil, List.forall_mem_map, isMapless,
      allMapless_eq, List.all_eq_true]
    exact forall₂_congr ih
  | obj es => simp [Expr.makeLiteral, code_obj_eq_nil, isMapless]

theorem eval_makeLiteral (h : v.isMapless) (d : Value) :
    Expr.eval d (Expr.makeLiteral v) = .ok v := by
  induction v with
  | null | bool | num => rfl
  | str s => simp [Expr.makeLiteral, Expr.eval, Expr.evalText]
  | arr xs ih =>
    rw [isMapless, allMapless_eq, List.all_eq_true] at h
    rw [Expr.makeLiteral, makeLiteralAll_eq, eval_arr_eq_ok, List.forall₂_map_left_iff,
      List.forall₂_same]
    exact fun x hx => ih x hx (h x hx)
  | obj es =>
    rw [isMapless, List.isEmpty_iff] at h
    rw [h]
    rfl

/-- As a literal, a value stands for itself unless it holds keys. -/
theorem standsFor_makeLiteral : (Expr.makeLiteral v).StandsFor v ↔ v.isMapless := by
  constructor
  · exact fun h => code_makeLiteral.mp h.1
  · exact fun h => ⟨code_makeLiteral.mpr h, eval_makeLiteral h⟩

end Value

/-! What is read -/

/-- The ways to read the scope: through a rooted reference, or by a `get` with a literal path. -/
inductive Lookup where
  | reference
  | get

namespace Lookup

/-- The form in which the value enters the expression. -/
def form : Lookup → Value → Value
  | reference, .str s => .str (Expr.quote s)
  | reference, v => v
  | get, v => Expr.makeLiteral v

/-- The values whose form stands for them. -/
def admits : Lookup → Value → Bool
  | reference, .str _ => true
  | reference, v => v.isInert
  | get, v => v.isMapless

theorem standsFor_form (k : Lookup) (v : Value) : (k.form v).StandsFor v ↔ k.admits v := by
  cases k with
  | get => exact Value.standsFor_makeLiteral
  | reference =>
    cases v with
    | str s =>
      have quoted : (Value.str (Expr.quote s)).StandsFor (.str s) :=
        ⟨Value.code_quote s, fun c => by simp [Expr.eval, Expr.evalText]⟩
      exact iff_of_true quoted rfl
    | null | bool | num | arr | obj => exact Value.standsFor_self

end Lookup

/-- Resolving an expression against the scope reads a value there. -/
inductive Reads (scope : Value) : Value → Lookup → Value → Prop
  | reference {s path : String} (rooted : Text.afterChar? '.' s = some path) :
    Reads scope (.str s) .reference ((scope.lookup path).getD .null)
  | item {xs : List Value} {x v : Value} {k : Lookup} (mem : x ∈ xs) (reads : Reads scope x k v) :
    Reads scope (.arr xs) k v
  | entry {es : List (String × Value)} {e : String × Value} {v : Value} {k : Lookup} (mem : e ∈ es)
    (reads : Reads scope e.2 k v) : Reads scope (.obj es) k v
  | get {name path : String} {args operand : Value} (method : Expr.Method.ofName? name = some .get)
    (resolved : resolve scope args = .ok operand) (literal : Expr.isLiteral operand)
    (names : Expr.pathOperand operand = some path) :
    Reads scope (.node name args) .get (Expr.get ((Expr.unquoted? path).getD path) scope)

/-- No rooted reference keeps what it leads to as a reference. -/
def Value.Quoting (p : Value) : Prop :=
  ∀ s path, .reference s ∈ p.code → Text.afterChar? '.' s = some path →
    path.toList.getLast? ≠ some '.'

section folding
variable {scope w : Value} {name : String} {m : Expr.Method}

/-- A fold that keeps the value it has or takes the next one has no map at its end. -/
theorem mapless_foldl {choose : Option Value → Value → Option Value}
    (chosen : ∀ best v, choose best v = best ∨ choose best v = some v) {vs : List Value}
    (h : ∀ v ∈ vs, v.isMapless) {best : Option Value} (hbest : (best.getD .null).isMapless) :
    ((vs.foldl choose best).getD .null).isMapless := by
  induction vs generalizing best with
  | nil => exact hbest
  | cons v vs ih =>
    rw [List.forall_mem_cons] at h
    rw [List.foldl_cons]
    apply ih h.2
    obtain hkeeps | htakes := chosen best v
    · rwa [hkeeps]
    · rw [htakes]
      exact h.1

theorem mapless_extreme {wanted : Ordering} {vs : List Value} (h : ∀ v ∈ vs, v.isMapless) :
    (Expr.extreme wanted vs).isMapless := by
  unfold Expr.extreme
  refine mapless_foldl (fun best v => ?_) (fun u hu => h u (List.mem_of_mem_filter hu)) rfl
  cases best with
  | none => exact .inr rfl
  | some current =>
    dsimp only
    split
    · exact .inr rfl
    · exact .inl rfl

/-- A literal stands for a value without maps. -/
theorem mapless_of_literal {v : Value} (h : Expr.isLiteral v) : (Expr.unliteral v).isMapless := by
  induction v with
  | null | bool | num | str => rfl
  | arr xs ih =>
    rw [Expr.isLiteral, Expr.allLiteral_eq, List.all_eq_true] at h
    rw [Expr.unliteral, Expr.unliteralAll_eq, Value.isMapless, Value.allMapless_eq,
      List.all_eq_true, List.forall_mem_map]
    exact fun x hx => ih x hx (h x hx)
  | obj es => cases h

theorem mapless_self_of_literal {v : Value} (h : Expr.isLiteral v) : v.isMapless := by
  induction v with
  | null | bool | num | str => rfl
  | arr xs ih =>
    rw [Expr.isLiteral, Expr.allLiteral_eq, List.all_eq_true] at h
    rw [Value.isMapless, Value.allMapless_eq, List.all_eq_true]
    exact fun x hx => ih x hx (h x hx)
  | obj es => cases h

theorem mapless_unary {op : Expr.Unary} {v : Value} (h : op.apply name v = .ok w) :
    w.isMapless := by
  cases op with
  | count =>
    cases v <;> simp only [Expr.Unary.apply, Expr.count, reduceCtorEq, Except.ok.injEq] at h <;>
      subst h <;> rfl
  | not | isNull | notNull | holds | fails =>
    cases h
    rfl

theorem mapless_variadic {op : Expr.Variadic} {vs : List Value} (h : ∀ v ∈ vs, v.isMapless) :
    (op.apply vs).isMapless := by
  have hcandidates : ∀ v ∈ Expr.candidates vs, v.isMapless := by
    unfold Expr.candidates
    split
    · rename_i xs
      have hxs := h (.arr xs) List.mem_cons_self
      rwa [Value.isMapless, Value.allMapless_eq, List.all_eq_true] at hxs
    · exact h
  cases op with
  | equal | notEqual => rfl
  | least | greatest => exact mapless_extreme hcandidates

/-- Of the methods only `get` can come to a map when its operands are literal. -/
theorem mapless_of_eval {args : Value} (hm : Expr.Method.ofName? name = some m) (hget : m ≠ .get)
    (literal : Expr.isLiteral args) (h : Expr.eval scope (.node name args) = .ok w) :
    w.isMapless := by
  have hitems {xs ys : List Value} (hargs : args = .arr xs)
      (hys : Expr.evalItems scope xs = .ok ys) : ∀ y ∈ ys, y.isMapless := by
    subst hargs
    rw [Expr.isLiteral, Expr.allLiteral_eq, List.all_eq_true] at literal
    intro y hy
    obtain ⟨x, hx, heval⟩ := (Expr.evalItems_eq_ok.mp hys).exists_left hy
    rw [Expr.eval_of_isLiteral (literal x hx)] at heval
    cases heval
    exact mapless_of_literal (literal x hx)
  cases m with
  | get => exact absurd rfl hget
  | all | any =>
    rcases args with _ | _ | _ | _ | (_ | ⟨x, xs⟩) | _ <;>
      simp only [Value.node, Expr.eval, hm, reduceCtorEq] at h
    obtain ⟨b, -, rfl⟩ := Except.map_eq_ok.mp h
    rfl
  | join =>
    rw [Value.node, Expr.eval.eq_def] at h
    simp only [hm] at h
    split at h
    · obtain ⟨vs, -, rfl⟩ := Except.map_eq_ok.mp h
      rfl
    · cases literal
    · cases h
      rfl
    · cases h
  | literal =>
    rw [Value.node, Expr.eval.eq_def] at h
    simp only [hm, Except.ok.injEq] at h
    exact h ▸ mapless_self_of_literal literal
  | object =>
    rw [Value.node, Expr.eval.eq_def] at h
    simp only [hm] at h
    split at h
    · cases literal
    · cases h
  | unary op =>
    rcases args with _ | _ | _ | _ | (_ | ⟨x, _ | ⟨y, xs⟩⟩) | _ <;>
      simp only [Value.node, Expr.eval, hm, reduceCtorEq] at h
    all_goals
      obtain ⟨v, -, hv⟩ := Except.bind_eq_ok.mp h
      exact mapless_unary hv
  | binary op =>
    rcases args with _ | _ | _ | _ | (_ | ⟨x, _ | ⟨y, _ | ⟨z, xs⟩⟩⟩) | _ <;>
      simp only [Value.node, Expr.eval, hm, reduceCtorEq] at h
    obtain ⟨left, -, hright⟩ := Except.bind_eq_ok.mp h
    obtain ⟨right, -, rfl⟩ := Except.map_eq_ok.mp hright
    rfl
  | variadic op =>
    cases args with
    | arr xs =>
      rw [Expr.eval_node_variadic scope hm] at h
      obtain ⟨vs, hvs, rfl⟩ := Except.map_eq_ok.mp h
      exact mapless_variadic (hitems rfl hvs)
    | null | bool | num | str | obj =>
      rw [Value.node, Expr.eval.eq_def] at h
      simp only [hm, reduceCtorEq] at h

/-- A map stays, or is one method with literal operands and becomes its result as a literal. -/
theorem fold_eq_ok {es : List (String × Value)} {q : Value} (h : fold scope es = .ok q) :
    (q = .obj es ∧ ∀ name args m, es = [(name, args)] → Expr.Method.ofName? name = some m →
      ¬Expr.isLiteral args) ∨
    ∃ name args m w, es = [(name, args)] ∧ Expr.Method.ofName? name = some m ∧
      Expr.isLiteral args ∧ Expr.eval scope (.node name args) = .ok w ∧ q = Expr.makeLiteral w := by
  unfold fold at h
  split at h
  · rename_i name args
    split at h
    · rename_i hfold
      rw [Bool.and_eq_true, Expr.isMethod, Option.isSome_iff_exists] at hfold
      obtain ⟨⟨m, hm⟩, literal⟩ := hfold
      obtain ⟨w, hw, rfl⟩ := Except.map_eq_ok.mp h
      exact .inr ⟨name, args, m, w, rfl, hm, literal, hw, rfl⟩
    · rename_i hfold
      cases h
      refine .inl ⟨rfl, ?_⟩
      rintro _ _ m ⟨⟩ hm literal
      exact hfold (by simp [Expr.isMethod, hm, literal])
  · rename_i hes
    cases h
    exact .inl ⟨rfl, fun name args m he => absurd he (hes name args)⟩

end folding
/-! Resolving -/

theorem resolve_rooted {scope : Value} {s path : String} (rooted : Text.afterChar? '.' s = some path)
    (closed : path.toList.getLast? ≠ some '.') :
    resolve scope (.str s) = .ok (Lookup.reference.form ((scope.lookup path).getD .null)) := by
  rw [resolve, rooted]
  dsimp only
  rw [resolveReference_closed closed]
  cases (scope.lookup path).getD .null <;> rfl

theorem resolve_obj_eq_ok {scope q : Value} {es : List (String × Value)} :
    resolve scope (.obj es) = .ok q ↔
      ∃ fs, List.Forall₂ (fun e f => e.1 = f.1 ∧ resolve scope e.2 = .ok f.2) es fs ∧
        fold scope fs = .ok q := by
  have hentries (fs : List (String × Value)) : resolveEntries scope es = .ok fs ↔
      List.Forall₂ (fun e f => e.1 = f.1 ∧ resolve scope e.2 = .ok f.2) es fs := by
    induction es generalizing fs with
    | nil => simp [resolveEntries, eq_comm]
    | cons e es ih =>
      rw [resolveEntries, Except.bind_eq_ok, List.forall₂_cons_left_iff]
      simp only [Except.map_eq_ok, ih]
      constructor
      · rintro ⟨v, hv, rest, hrest, rfl⟩
        exact ⟨(e.1, v), rest, ⟨rfl, hv⟩, hrest, rfl⟩
      · rintro ⟨⟨k, v⟩, rest, ⟨rfl, hv⟩, hrest, rfl⟩
        exact ⟨v, hv, rest, hrest, rfl⟩
  simp only [resolve, Except.bind_eq_ok, hentries]

section substitution
variable {scope : Value}

theorem Value.Quoting.item {xs : List Value} (h : (Value.arr xs).Quoting) {x : Value}
    (hx : x ∈ xs) : x.Quoting :=
  fun s path hs => h s path (Value.mem_code_arr.mpr ⟨x, hx, hs⟩)

theorem Value.Quoting.entry {es : List (String × Value)} (h : (Value.obj es).Quoting)
    {e : String × Value} (he : e ∈ es) : e.2.Quoting :=
  fun s path hs => h s path (Value.mem_code_obj.mpr ⟨e, he, .inr hs⟩)

theorem code_rooted {s path : String} (rooted : Text.afterChar? '.' s = some path) :
    (Value.str s).code = [.reference s] := by
  have hs := Text.afterChar?_eq_some.mp rooted
  have hempty : s.isEmpty = false := by
    rw [String.isEmpty_eq_false_iff]
    rintro rfl
    simp at hs
  rw [Value.code, Expr.unquoted?_of_not_isQuote hs (by decide), hempty]
  rfl

theorem Value.Quoting.closed {s path : String} (h : (Value.str s).Quoting)
    (rooted : Text.afterChar? '.' s = some path) : path.toList.getLast? ≠ some '.' :=
  h s path (by rw [code_rooted rooted]; exact List.mem_singleton_self _) rooted

/-- Code that resolving leaves comes from the expression or spells a value that was read. -/
theorem mem_code_of_resolve {p q : Value} (quoting : p.Quoting) (h : resolve scope p = .ok q)
    {c : Code} (hc : c ∈ q.code) :
    c ∈ p.code ∨ ∃ k v, Reads scope p k v ∧ c ∈ (k.form v).code := by
  induction p generalizing q with
  | null | bool | num =>
    cases h
    exact .inl hc
  | str s =>
    cases rooted : Text.afterChar? '.' s with
    | none =>
      rw [resolve_plain scope rooted] at h
      cases h
      exact .inl hc
    | some path =>
      rw [resolve_rooted rooted (quoting.closed rooted)] at h
      cases h
      exact .inr ⟨_, _, .reference rooted, hc⟩
  | arr xs ih =>
    obtain ⟨ys, hys, rfl⟩ := resolve_arr_eq_ok.mp h
    obtain ⟨y, hy, hc⟩ := Value.mem_code_arr.mp hc
    obtain ⟨x, hx, hxy⟩ := hys.exists_left hy
    rcases ih x hx (quoting.item hx) hxy hc with hp | ⟨k, v, reads, hv⟩
    · exact .inl (Value.mem_code_arr.mpr ⟨x, hx, hp⟩)
    · exact .inr ⟨k, v, .item hx reads, hv⟩
  | obj es ih =>
    obtain ⟨fs, hfs, hfold⟩ := resolve_obj_eq_ok.mp h
    rcases fold_eq_ok hfold with ⟨rfl, -⟩ | ⟨name, args, m, w, rfl, hm, literal, hw, rfl⟩
    · obtain ⟨f, hf, hc⟩ := Value.mem_code_obj.mp hc
      obtain ⟨e, he, hkey, hef⟩ := hfs.exists_left hf
      rcases hc with rfl | hc
      · exact .inl (Value.mem_code_obj.mpr ⟨e, he, .inl (by rw [hkey])⟩)
      rcases ih e he (quoting.entry he) hef hc with hp | ⟨k, v, reads, hv⟩
      · exact .inl (Value.mem_code_obj.mpr ⟨e, he, .inr hp⟩)
      · exact .inr ⟨k, v, .entry he reads, hv⟩
    · -- only a `get` comes to something that is not data
      by_cases hget : m = .get
      · subst hget
        obtain ⟨path, hpath, rfl⟩ := (Expr.eval_node_get scope hm).mp hw
        obtain ⟨e, es, ⟨rfl, hargs⟩, hrest, rfl⟩ := List.forall₂_cons_right_iff.mp hfs
        cases hrest
        exact .inr ⟨.get, _, .get hm hargs literal hpath, hc⟩
      · have hmapless := mapless_of_eval hm hget literal hw
        rw [Value.code_makeLiteral.mpr hmapless] at hc
        cases hc

/-- Code that a read value spells is code once the expression is resolved. -/
theorem mem_code_of_reads {p q : Value} (quoting : p.Quoting) (h : resolve scope p = .ok q)
    {k : Lookup} {v : Value} (reads : Reads scope p k v) {c : Code} (hc : c ∈ (k.form v).code) :
    c ∈ q.code := by
  induction reads generalizing q with
  | reference rooted =>
    rw [resolve_rooted rooted (quoting.closed rooted)] at h
    cases h
    exact hc
  | item hx _ ih =>
    obtain ⟨ys, hys, rfl⟩ := resolve_arr_eq_ok.mp h
    obtain ⟨y, hy, hxy⟩ := hys.flip.exists_left hx
    exact Value.mem_code_arr.mpr ⟨y, hy, ih (quoting.item hx) hxy hc⟩
  | @entry es e v k he _ ih =>
    obtain ⟨fs, hfs, hfold⟩ := resolve_obj_eq_ok.mp h
    obtain ⟨f, hf, -, hef⟩ := hfs.flip.exists_left he
    have hcf := ih (quoting.entry he) hef hc
    rcases fold_eq_ok hfold with ⟨rfl, -⟩ | ⟨name, args, m, w, rfl, hm, literal, -⟩
    · exact Value.mem_code_obj.mpr ⟨f, hf, .inr hcf⟩
    · -- operands with code are not literal
      cases List.mem_singleton.mp hf
      rw [Value.code_of_isLiteral literal] at hcf
      cases hcf
  | get method resolved literal names =>
    obtain ⟨operand, hoperand, hfold⟩ := resolve_node_eq_ok.mp h
    cases resolved.symm.trans hoperand
    rcases fold_eq_ok hfold with ⟨-, hstays⟩ | ⟨name, args, m, w, hes, hm, -, hw, rfl⟩
    · exact absurd literal (hstays _ _ _ rfl method)
    · cases hes
      cases method.symm.trans hm
      obtain ⟨path, hpath, rfl⟩ := (Expr.eval_node_get scope hm).mp hw
      cases names.symm.trans hpath
      exact hc

/-- What a predicate is made of once it is resolved. Its code is the code of the predicate and what
the values that were read spell; a value that was read is data with its own meaning exactly if its way
of being read admits it. -/
theorem code_resolve {p q : Value} (quoting : p.Quoting) (h : resolve scope p = .ok q) :
    (∀ c ∈ q.code, c ∈ p.code ∨ ∃ k v, Reads scope p k v ∧ c ∈ (k.form v).code) ∧
      ∀ k v, Reads scope p k v →
        (∀ c ∈ (k.form v).code, c ∈ q.code) ∧ ((k.form v).StandsFor v ↔ k.admits v) := by
  constructor
  · exact fun c hc => mem_code_of_resolve quoting h hc
  · intro k v reads
    exact ⟨fun c hc => mem_code_of_reads quoting h reads hc, k.standsFor_form v⟩

end substitution

/-! Members of groups, asked for records that one of the requester's groups owns -/

namespace Groups

def asks : Value := .node "in" (.arr [.str "owner", .str ".request.groups"])

def asked : Context where
  query := {}
  request := .node "groups" (.arr [.str "admin"])

def answered : Value := .node "in" (.arr [.str "owner", .arr [.str "admin"]])

theorem rooted_groups : Text.afterChar? '.' ".request.groups" = some "request.groups" := rfl

theorem target_groups : asked.scope.lookup "request.groups" = some (.arr [.str "admin"]) := rfl

theorem code_asks : asks.code = [.key "in", .reference "owner", .reference ".request.groups"] := by
  simp [asks, Value.node, Value.code, codeOfEntries, codeOfItems, Expr.unquoted?, Expr.isQuote]

theorem code_answered : answered.code = [.key "in", .reference "owner", .reference "admin"] := by
  simp [answered, Value.node, Value.code, codeOfEntries, codeOfItems, Expr.unquoted?, Expr.isQuote]

theorem quoting_asks : asks.Quoting := by
  intro s path hs rooted
  simp only [code_asks, List.mem_cons, Code.reference.injEq, reduceCtorEq, false_or,
    List.not_mem_nil, or_false] at hs
  rcases hs with rfl | rfl
  · cases rooted
  · cases rooted_groups.symm.trans rooted
    decide

theorem resolve_asks : resolve asked.scope asks = .ok answered := by
  have field := resolve_plain asked.scope (s := "owner") (by decide)
  have reference : resolve asked.scope (.str ".request.groups") = .ok (.arr [.str "admin"]) := by
    rw [resolve_rooted rooted_groups (by decide), target_groups]
    rfl
  have items := resolve_arr_eq_ok.mpr ⟨_, .cons field (.cons reference .nil), rfl⟩
  have refers : Expr.isLiteral (.arr [.str "owner", .arr [.str "admin"]]) = false := by
    simp [Expr.isLiteral, Expr.allLiteral, Expr.unquoted?, Expr.isQuote]
  exact resolve_node_eq_ok.mpr ⟨_, items, by simp [fold, refers, answered, Value.node]⟩

/-- A record that no group owns, with a field that has the name of a group. -/
def record : Record := [("admin", .str "eve"), ("owner", .str "eve")]

theorem eval_owner : Expr.eval (asked.recordScope record) (.str "owner") = .ok (.str "eve") := by
  have unquoted : Expr.unquoted? "owner" = none := by simp [Expr.unquoted?, Expr.isQuote]
  rw [Expr.eval, Expr.evalText, unquoted]
  rfl

theorem eval_admin : Expr.eval (asked.recordScope record) (.str "admin") = .ok (.str "eve") := by
  have unquoted : Expr.unquoted? "admin" = none := by simp [Expr.unquoted?, Expr.isQuote]
  rw [Expr.eval, Expr.evalText, unquoted]
  rfl

theorem eval_groups :
    Expr.eval (asked.recordScope record) (.str ".request.groups") = .ok (.arr [.str "admin"]) := by
  rw [Expr.eval, Expr.evalText_rooted rooted_groups]
  rfl

end Groups

theorem code_resolve_groups :
    Groups.asks.Quoting ∧ resolve Groups.asked.scope Groups.asks = .ok Groups.answered ∧
    (∀ c ∈ Groups.answered.code, c ∈ Groups.asks.code ∨
      ∃ k v, Reads Groups.asked.scope Groups.asks k v ∧ c ∈ (k.form v).code) ∧
    ∀ k v, Reads Groups.asked.scope Groups.asks k v →
      (∀ c ∈ (k.form v).code, c ∈ Groups.answered.code) ∧ ((k.form v).StandsFor v ↔ k.admits v) :=
  ⟨Groups.quoting_asks, Groups.resolve_asks, code_resolve Groups.quoting_asks Groups.resolve_asks⟩

/-- Texts in a list are put in without quotes and refer to fields: a record whose field `admin` names
its owner is found, although no group owns it. -/
theorem resolve_unquoted_list :
    Groups.asks.Quoting ∧ resolve Groups.asked.scope Groups.asks = .ok Groups.answered ∧
      .reference "admin" ∈ Groups.answered.code ∧ .reference "admin" ∉ Groups.asks.code ∧
      Expr.eval (Groups.asked.recordScope (some Groups.record)) Groups.asks = .ok (.bool false) ∧
      Expr.eval (Groups.asked.recordScope (some Groups.record)) Groups.answered =
        .ok (.bool true) := by
  refine ⟨Groups.quoting_asks, Groups.resolve_asks, ?_, ?_, ?_, ?_⟩
  · simp [Groups.code_answered]
  · simp [Groups.code_asks]
  · exact (Expr.eval_node_binary _ rfl Groups.eval_owner Groups.eval_groups).trans (by rfl)
  · have list := Value.eval_arr_eq_ok.mpr (.cons Groups.eval_admin .nil)
    exact (Expr.eval_node_binary _ rfl Groups.eval_owner list).trans (by rfl)

end RecordGraph
