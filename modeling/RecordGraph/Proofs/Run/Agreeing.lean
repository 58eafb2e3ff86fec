import RecordGraph.Proofs.Predicate.Substitution
import RecordGraph.Proofs.Run.Record
import RecordGraph.Proofs.Store.Agreeing

/-!
Reading on two stores whose records correspond: the runs give what corresponds, or they fail alike.
-/
namespace RecordGraph

/-! Runs on two stores -/

namespace Run
variable {α β γ δ : Type} {R : α → β → Prop} {S : γ → δ → Prop}

/-- Runs whose results correspond, or that fail alike. -/
def Agrees (R : α → β → Prop) (run : Run α) (other : Run β) : Prop :=
  Except.Agrees R run.outcome other.outcome

namespace Agrees

theorem ok {a : α} {b : β} (h : R a b) : Agrees R (pure a) (pure b) := Except.Agrees.ok h

theorem fail (e : QueryError) : Agrees R (Run.fail e) (Run.fail e) := Except.Agrees.error e

theorem bind {run : Run α} {other : Run β} {next : α → Run γ} {next' : β → Run δ} (h : Agrees R run other)
    (hnext : ∀ a b, R a b → Agrees S (next a) (next' b)) : Agrees S (run >>= next) (other >>= next') := by
  obtain ⟨calls, handed, outcome⟩ := run
  obtain ⟨calls', handed', outcome'⟩ := other
  cases h with
  | ok h => exact hnext _ _ h
  | error e => exact Except.Agrees.error e

/-- What both do before is the same. -/
theorem after {x : Except QueryError α} {next : α → Run γ} {next' : α → Run δ}
    (hnext : ∀ a, x = .ok a → Agrees S (next a) (next' a)) :
    Agrees S (Run.ofExcept x >>= next) (Run.ofExcept x >>= next') := by
  cases x with
  | error e => exact Except.Agrees.error e
  | ok a => exact hnext a rfl

theorem each {f g : α → Run β} {xs : List α} (h : ∀ x ∈ xs, Agrees Eq (f x) (g x)) :
    Agrees Eq (Run.each f xs) (Run.each g xs) := by
  induction xs with
  | nil => exact ok rfl
  | cons x xs ih =>
    rw [List.forall_mem_cons] at h
    exact bind h.1 fun y _ hy => bind (ih h.2) fun ys _ hys => ok (by rw [hy, hys])

theorem outcome {run other : Run α} (h : Agrees Eq run other) : run.outcome = other.outcome := by
  unfold Agrees at h
  generalize run.outcome = x at h
  generalize other.outcome = y at h
  cases h with
  | ok h => rw [h]
  | error e => rfl

end Agrees
end Run

theorem Store.answer_agrees {α β : Type} {R : α → β → Prop} {x : Except StoreError α}
    {y : Except StoreError β} (h : Except.Agrees R x y) : Except.Agrees R (answer x) (answer y) := by
  cases h with
  | ok h => exact .ok h
  | error e => exact .error _

/-! Predicates -/

namespace Store
variable {a b : Record}

theorem eval_of_isMatch {p : Value} (same : isMatch (some p) a = isMatch (some p) b) :
    (Expr.eval (.node "fields" (.obj a)) p).map Expr.truthy =
      (Expr.eval (.node "fields" (.obj b)) p).map Expr.truthy := by
  rw [isMatch, isMatch] at same
  generalize Expr.eval (.node "fields" (.obj a)) p = x at same
  generalize Expr.eval (.node "fields" (.obj b)) p = y at same
  cases x <;> cases y <;> simp_all

/-- Joined predicates do not tell records apart that none of them does. -/
theorem isMatch_conjoin_same {ps : List Value}
    (same : ∀ p ∈ ps, isMatch (some p) a = isMatch (some p) b) :
    isMatch (conjoin ps) a = isMatch (conjoin ps) b := by
  rw [isMatch_conjoin_eq, isMatch_conjoin_eq]
  congr 1
  induction ps with
  | nil => rfl
  | cons p ps ih =>
    rw [List.forall_mem_cons] at same
    have first := eval_of_isMatch same.1
    rw [Expr.evalAll, Expr.evalAll, ih same.2]
    generalize Expr.eval (.node "fields" (.obj a)) p = x at first
    generalize Expr.eval (.node "fields" (.obj b)) p = y at first
    cases x <;> cases y <;> simp_all

/-- A predicate for ids does not tell records apart with the same id, if no id reads them. -/
theorem isMatch_inPredicate_same {key : String} {ids : List Value} (same : a.refer key = b.refer key)
    (blind : ∀ id ∈ ids, Expr.eval (.node "fields" (.obj a)) (Expr.makeLiteral id) =
      Expr.eval (.node "fields" (.obj b)) (Expr.makeLiteral id)) :
    isMatch (some (inPredicate key ids)) a = isMatch (some (inPredicate key ids)) b := by
  have items : Expr.evalItems (.node "fields" (.obj a)) (ids.map Expr.makeLiteral) =
      Expr.evalItems (.node "fields" (.obj b)) (ids.map Expr.makeLiteral) := by
    induction ids with
    | nil => rfl
    | cons id ids ih =>
      rw [List.forall_mem_cons] at blind
      rw [List.map_cons, Expr.evalItems, Expr.evalItems, blind.1, ih blind.2]
  have list : Expr.eval (.node "fields" (.obj a)) (Expr.makeLiteral (.arr ids)) =
      Expr.eval (.node "fields" (.obj b)) (Expr.makeLiteral (.arr ids)) := by
    rw [Expr.makeLiteral, Value.makeLiteralAll_eq, Expr.eval, Expr.eval, items]
  have reference : Expr.eval (.node "fields" (.obj a)) (.str key) =
      Expr.eval (.node "fields" (.obj b)) (.str key) := congrArg Except.ok same
  have whole : Expr.eval (.node "fields" (.obj a)) (inPredicate key ids) =
      Expr.eval (.node "fields" (.obj b)) (inPredicate key ids) :=
    Expr.eval_node_congr rfl rfl (.cons reference (.cons list .nil))
  rw [isMatch, isMatch, whole]

end Store

namespace Engine
variable {e : Engine} {store : Store} {s : Resource} {q : Query} {request : Value}
  {T : Record → Record → Prop}

/-- The engine on another store. -/
def on (e : Engine) (store : Store) : Engine := { e with store := store }

/-! Targets -/

theorem lookup_agrees {groups groups' : List (String × List Record)}
    (h : List.Forall₂ (fun x y => x.1 = y.1 ∧ List.Forall₂ T x.2 y.2) groups groups') (id : String) :
    List.Forall₂ T ((groups.lookup id).getD []) ((groups'.lookup id).getD []) := by
  induction h with
  | nil => exact .nil
  | @cons x y _ _ hxy _ ih =>
    obtain ⟨name, records⟩ := x
    obtain ⟨name', records'⟩ := y
    obtain ⟨(rfl : name = name'), hrecords⟩ := hxy
    rw [List.lookup_cons, List.lookup_cons]
    cases id == name with
    | true => exact hrecords
    | false => exact ih

/-- Records that correspond are picked for the same ids. -/
theorem pick_agrees {key : String}
    (same : ∀ a b, T a b → a.read key = b.read key) (sorted : Bool) {fetched fetched' : List Record}
    (h : List.Forall₂ T fetched fetched') (ids : List Value) :
    List.Forall₂ T (pick key sorted fetched ids) (pick key sorted fetched' ids) := by
  unfold pick
  dsimp only
  split
  · exact List.rel_filter (fun a b hab => Bool.coe_iff_coe.mpr (by rw [same a b hab])) h
  · refine List.rel_filterMap (R := Eq) ?_ (List.forall₂_refl (ids.map idText))
    rintro id _ rfl
    exact (List.rel_reverse h).find?_same fun a b hab => by rw [same a b hab]

/-! Reads -/

theorem getLast?_agrees {xs ys : List Record} (h : List.Forall₂ T xs ys) :
    Option.Rel T xs.getLast? ys.getLast? := by
  have reversed := List.rel_reverse h
  rw [← List.head?_reverse, ← List.head?_reverse]
  generalize xs.reverse = us at reversed ⊢
  generalize ys.reverse = vs at reversed ⊢
  cases reversed with
  | nil => exact .none
  | cons h _ => exact .some h

/-- The fields of a cursor do not tell corresponding records apart. -/
def ContinuesAlike (e : Engine) (s : Resource) (T : Record → Record → Prop) (window : Window) : Prop :=
  ∀ after, window.cursor = some (.keyset after) → ∀ name ∈ after.keys, ∀ p,
    e.server.storagePath s name = .ok p → ∀ a b, T a b → a.read p = b.read p

theorem keysetValues_same (store : Store) {window : Window} (continues : e.ContinuesAlike s T window)
    {last last' : Option Record} (h : Option.Rel T last last') :
    e.keysetValues s window last = (e.on store).keysetValues s window last' := by
  unfold keysetValues
  cases h with
  | none => cases window.cursor with
    | none => rfl
    | some cursor => cases cursor <;> rfl
  | some hab =>
    cases hcursor : window.cursor with
    | none => rfl
    | some cursor =>
      cases cursor with
      | offset n => rfl
      | keyset after =>
        refine congrArg (Except.map some) (Except.mapM_congr fun name hname => ?_)
        change (e.server.storagePath s name).map _ = (e.server.storagePath s name).map _
        cases hpath : e.server.storagePath s name with
        | error error => rfl
        | ok p => rw [Except.ok_map, Except.ok_map, continues after hcursor name hname p hpath _ _ hab]

/-- Pages of corresponding records go on alike. -/
theorem turnPage_agrees {window : Window} (below : Option String) (continues : e.ContinuesAlike s T window)
    {fetched fetched' : Fetched} (records : List.Forall₂ T fetched.records fetched'.records)
    (total : fetched.total = fetched'.total) :
    Except.Agrees (fun x y => List.Forall₂ T x.1 y.1 ∧ x.2 = y.2) (e.turnPage s window below fetched)
      ((e.on store).turnPage s window below fetched') := by
  unfold turnPage
  rw [← records.length_eq]
  split
  · exact .ok ⟨records, rfl⟩
  · have taken := List.forall₂_take window.size.toNat records
    dsimp only
    rw [keysetValues_same store continues (getLast?_agrees taken)]
    cases (e.on store).keysetValues s window (fetched'.records.take window.size.toNat).getLast? with
    | error error => exact .error error
    | ok values => exact .ok ⟨taken, by rw [total]⟩

theorem theRecord_agrees {endpoint : Endpoint} {fetched fetched' : Fetched}
    (records : List.Forall₂ T fetched.records fetched'.records) :
    Except.Agrees T (theRecord q s endpoint fetched) (theRecord q s endpoint fetched') := by
  unfold theRecord
  generalize fetched.records = xs at records ⊢
  generalize fetched'.records = ys at records ⊢
  cases records with
  | nil =>
    dsimp only
    split <;> exact .error _
  | cons h _ => exact .ok h

/-! Children -/

/-- Children that are read alike make up the same answer. -/
theorem getChildren_agrees {get get' : Context → Option String → Run Response}
    (own : ∀ key name sub below, childQuery q key name = .ok sub →
      Run.Agrees Eq (get ⟨sub, request⟩ below) (get' ⟨sub, request⟩ below))
    (below : Option String) (names : List String) :
    Run.Agrees Eq (getChildren get ⟨q, request⟩ below names)
      (getChildren get' ⟨q, request⟩ below names) := by
  have child (name : String) : Run.Agrees Eq (getChild get ⟨q, request⟩ below name)
      (getChild get' ⟨q, request⟩ below name) := by
    unfold getChild
    rcases childEntry q.take name with _ | ⟨key, (_ | _) | state⟩
    · exact .ok rfl
    · exact .ok rfl
    · exact .ok rfl
    · refine Run.Agrees.after fun sub hsub => ?_
      exact Run.Agrees.bind (own key name sub _ hsub) fun answer answer' h => .ok (by rw [h])
  have answers := Run.Agrees.each fun name (_ : name ∈ names) =>
    Run.Agrees.bind (child name) fun part part' h => .ok (congrArg (Option.map (name, ·)) h)
  exact Run.Agrees.bind answers fun found found' h => .ok (by rw [h])

end Engine
end RecordGraph
