import Mathlib.Data.List.Forall2
import RecordGraph.Proofs.Outcome
import RecordGraph.Proofs.Store.Memory

/-!
Reading from two stores whose records correspond. What is read corresponds as well, if the records that do
are not told apart by the predicate, the sort keys and the keys of relations.
-/
universe u v w

/-- Computations that both give results that correspond, or both fail with the same error. -/
inductive Except.Agrees {ε : Type u} {α : Type v} {β : Type w} (R : α → β → Prop) :
    Except ε α → Except ε β → Prop
  | ok {a : α} {b : β} (h : R a b) : Agrees R (.ok a) (.ok b)
  | error (e : ε) : Agrees R (.error e) (.error e)

/-- Lists whose items are computed alike are computed alike. -/
theorem Except.mapM_same {ε : Type u} {α β γ : Type v} {f : α → Except ε γ} {g : β → Except ε γ}
    {xs : List α} {ys : List β} (h : List.Forall₂ (fun a b => f a = g b) xs ys) :
    xs.mapM f = ys.mapM g := by
  induction h with
  | nil => rfl
  | cons hab _ ih => rw [mapM_cons, mapM_cons, hab, ih]

namespace Except.Agrees
variable {ε : Type u} {α β γ δ : Type v} {R : α → β → Prop} {S : γ → δ → Prop} {x : Except ε α}
  {y : Except ε β}

theorem bind {f : α → Except ε γ} {g : β → Except ε δ} (h : Agrees R x y)
    (next : ∀ a b, R a b → Agrees S (f a) (g b)) : Agrees S (x.bind f) (y.bind g) := by
  cases h with
  | ok h => exact next _ _ h
  | error e => exact .error e

theorem map {f : α → γ} {g : β → δ} (h : Agrees R x y) (next : ∀ a b, R a b → S (f a) (g b)) :
    Agrees S (x.map f) (y.map g) := by
  cases h with
  | ok h => exact .ok (next _ _ h)
  | error e => exact .error e

/-- Lists are mapped item by item. -/
theorem mapM {f : α → Except ε γ} {g : β → Except ε δ} {xs : List α} {ys : List β}
    (h : List.Forall₂ (fun a b => Agrees S (f a) (g b)) xs ys) :
    Agrees (List.Forall₂ S) (xs.mapM f) (ys.mapM g) := by
  induction h with
  | nil => exact .ok .nil
  | cons hab _ ih =>
    rw [mapM_cons, mapM_cons]
    exact hab.bind fun c d hcd => ih.map fun cs ds hcds => .cons hcd hcds

end Except.Agrees

theorem List.forall₂_map_map {α β γ : Type} {R : β → γ → Prop} {f : α → β} {g : α → γ} {xs : List α}
    (h : ∀ x ∈ xs, R (f x) (g x)) : List.Forall₂ R (xs.map f) (xs.map g) :=
  List.forall₂_map_left_iff.mpr (List.forall₂_map_right_iff.mpr (List.forall₂_same.mpr h))

theorem Option.Rel.bind_eq {α β γ : Type} {R : α → β → Prop} {x : Option α} {y : Option β}
    {f : α → Option γ} {g : β → Option γ} (h : Option.Rel R x y) (same : ∀ a b, R a b → f a = g b) :
    x.bind f = y.bind g := by
  cases h with
  | some h => exact same _ _ h
  | none => rfl

theorem List.Forall₂.find?_same {α β : Type} {R : α → β → Prop} {xs : List α} {ys : List β}
    {p : α → Bool} {q : β → Bool} (h : Forall₂ R xs ys)
    (same : ∀ a b, R a b → p a = q b) : Option.Rel R (xs.find? p) (ys.find? q) := by
  induction h with
  | nil => exact .none
  | cons hab _ ih =>
    rw [find?_cons, find?_cons, same _ _ hab]
    split
    · exact .some hab
    · exact ih

namespace RecordGraph
namespace Store
variable {R P T : Record → Record → Prop} {xs ys : List Record}

/-! Selecting and sorting -/

theorem select_agrees {predicate : Option Value} (h : List.Forall₂ R xs ys)
    (same : ∀ a b, R a b → isMatch predicate a = isMatch predicate b) :
    Except.Agrees (List.Forall₂ R) (select predicate xs) (select predicate ys) := by
  induction h with
  | nil => exact .ok .nil
  | cons hab _ ih =>
    rw [select, select, same _ _ hab]
    cases isMatch predicate _ with
    | error e => exact .error e
    | ok keep =>
      refine ih.bind fun as bs h => ?_
      cases keep with
      | false => exact .ok h
      | true => exact .ok (.cons hab h)

theorem insertReversed_agrees {keys : List SortKey}
    (same : ∀ key ∈ keys, ∀ a b, R a b → a.read key.path = b.read key.path) {a b : Record} (hab : R a b)
    (h : List.Forall₂ R xs ys) : List.Forall₂ R (insertReversed keys a xs) (insertReversed keys b ys) := by
  have order {a b c d : Record} (hab : R a b) (hcd : R c d) :
      orderRecords keys a c = orderRecords keys b d := by
    unfold orderRecords
    congr 2
    refine List.map_congr_left fun key hkey => ?_
    rw [SortKey.order, SortKey.order, same key hkey _ _ hab, same key hkey _ _ hcd]
  induction h with
  | nil => exact .cons hab .nil
  | cons hcd hrest ih =>
    rw [insertReversed, insertReversed, order hab hcd]
    split
    · exact .cons hcd ih
    · exact .cons hab (.cons hcd hrest)

theorem sortRecords_agrees {keys : List SortKey}
    (same : ∀ key ∈ keys, ∀ a b, R a b → a.read key.path = b.read key.path)
    (h : List.Forall₂ R xs ys) : List.Forall₂ R (sortRecords keys xs) (sortRecords keys ys) := by
  unfold sortRecords
  split
  · exact h
  · have step : Relator.LiftFun (List.Forall₂ R) (Relator.LiftFun R (List.Forall₂ R))
        (fun sorted r => insertReversed keys r sorted) fun sorted r => insertReversed keys r sorted :=
      fun _ _ hsorted _ _ hab => insertReversed_agrees same hab hsorted
    exact List.rel_reverse (List.rel_foldl step .nil h)

theorem window_agrees (offset : UInt64) (limit : Option UInt64) (h : List.Forall₂ R xs ys) :
    List.Forall₂ R (window offset limit xs) (window offset limit ys) := by
  unfold window
  cases limit with
  | none => exact List.forall₂_drop _ h
  | some n => exact List.forall₂_take _ (List.forall₂_drop _ h)

/-! Collections -/

/-- What is fetched from collections whose records correspond. -/
theorem fetch_agrees {s s' : Store} (request : Fetch)
    (stored : Except.Agrees (List.Forall₂ R) (s.collection request.source) (s'.collection request.source))
    (matched : ∀ a b, R a b → isMatch request.predicate a = isMatch request.predicate b)
    (sorted : ∀ key ∈ request.sort, ∀ a b, R a b → a.read key.path = b.read key.path) :
    Except.Agrees (fun x y => List.Forall₂ R x.records y.records ∧ x.total = y.total)
      (s.fetch request) (s'.fetch request) := by
  refine stored.bind fun xs ys h => (select_agrees h matched).bind fun xs ys h => .ok ?_
  have sorted := sortRecords_agrees sorted h
  exact ⟨window_agrees _ _ sorted, by rw [sorted.length_eq]⟩

/-! Relations -/

/-- Records that correspond are not told apart by a relation: neither as parents, nor as targets. -/
structure Follows (P T : Record → Record → Prop) (relation : Relation) : Prop where
  parent : ∀ a b, P a b → a.get? relation.parentKey = b.get? relation.parentKey
  field : ∀ a b, P a b → a.read relation.field = b.read relation.field
  target : ∀ a b, T a b → a.get? relation.targetKey = b.get? relation.targetKey
  inverse : ∀ key, relation.inverse = some key → ∀ a b, T a b → a.get? key = b.get? key

theorem hasId_same {key id : String} {a b : Record} (same : a.get? key = b.get? key) :
    hasId key id a = hasId key id b := by rw [hasId, hasId, same]

theorem linked_agrees {key : String} (same : ∀ a b, T a b → a.get? key = b.get? key)
    (h : List.Forall₂ T xs ys) (v : Value) : List.Forall₂ T (linked key xs v) (linked key ys v) := by
  have same (id : String) (a b : Record) (hab : T a b) : hasId key id a = hasId key id b :=
    hasId_same (same a b hab)
  cases v with
  | arr ids =>
    refine List.rel_filterMap (R := Eq) ?_ (List.forall₂_refl ids)
    rintro id _ rfl
    exact h.find?_same (same _)
  | _ => exact List.rel_filter (fun a b hab => Bool.coe_iff_coe.mpr (same _ a b hab)) h

theorem candidates_agrees {relation : Relation} (follows : Follows P T relation)
    {parents parents' targets targets' : List Record} (hparents : List.Forall₂ P parents parents')
    (htargets : List.Forall₂ T targets targets') (parent : String) :
    List.Forall₂ T (candidates relation parents targets parent)
      (candidates relation parents' targets' parent) := by
  have found : Option.Rel P (parents.find? (hasId relation.parentKey parent))
      (parents'.find? (hasId relation.parentKey parent)) :=
    hparents.find?_same fun a b hab => hasId_same (follows.parent a b hab)
  have stored := found.bind_eq follows.field
  unfold candidates
  rw [stored]
  dsimp only
  split
  · exact linked_agrees follows.target htargets _
  · rename_i inverse _ hinverse
    refine List.rel_filter (fun a b hab => Bool.coe_iff_coe.mpr ?_) htargets
    rw [pointsBack, pointsBack, follows.inverse inverse hinverse a b hab]
  · exact .nil

/-- What is fetched for the same parents through a relation. -/
theorem fetchRelated_agrees {s s' : Store} (request : FetchRelated)
    (parents : Except.Agrees (List.Forall₂ P) (s.collection request.relation.source)
      (s'.collection request.relation.source))
    (targets : Except.Agrees (List.Forall₂ T) (s.collection request.relation.target)
      (s'.collection request.relation.target))
    (follows : Follows P T request.relation)
    (matched : ∀ a b, T a b → isMatch request.predicate a = isMatch request.predicate b)
    (sorted : ∀ key ∈ request.sort, ∀ a b, T a b → a.read key.path = b.read key.path) :
    Except.Agrees (List.Forall₂ fun x y => x.1 = y.1 ∧ List.Forall₂ T x.2 y.2)
      (s.fetchRelated request) (s'.fetchRelated request) := by
  refine parents.bind fun ps ps' hps => targets.bind fun ts ts' hts => Except.Agrees.mapM ?_
  refine List.forall₂_same.mpr fun id _ => ?_
  refine (select_agrees (candidates_agrees follows hps hts id) matched).bind fun xs ys h => .ok ?_
  exact ⟨rfl, window_agrees _ _ (sortRecords_agrees sorted h)⟩

end Store
end RecordGraph
