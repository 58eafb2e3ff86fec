import RecordGraph.Proofs.Expr.Compare
import RecordGraph.Proofs.Store.Memory

/-!
Sorting by columns of one kind. Where every column sorted by holds values of one kind or null, leaving
records out does not change the order of the others.
-/
namespace RecordGraph
open Std

/-- The column at a path holds values of one kind, or null. -/
def OneKind (records : List Record) (path : String) : Prop :=
  ∃ kind, ∀ record ∈ records, ∀ v, record.read path = some v →
    v = .null ∨ Store.kindName v = kind

theorem OneKind.mono {records other : List Record} {path : String} (h : OneKind records path)
    (sub : other ⊆ records) : OneKind other path := by
  obtain ⟨kind, hkind⟩ := h
  exact ⟨kind, fun record hrecord => hkind record (sub hrecord)⟩

/-! Comparing -/

/-- Only values of one kind are compared. -/
theorem Expr.kindName_eq_of_order {v w : Value} (h : (Expr.order v w).isSome) :
    Store.kindName v = Store.kindName w := by
  cases v <;> cases w <;> first | rfl | cases h

/-! Columns -/

def numberKey : Option Value → Option Int
  | some (.num n) => some n.toDouble.key
  | _ => none

def textKey : Option Value → Option String
  | some (.str s) => some s
  | _ => none

def boolKey : Option Value → Option Bool
  | some (.bool b) => some b
  | _ => none

/-- The order of values by what they are as numbers, as texts and as truth values, and by whether they
are there. -/
def orderKeys : Option Value → Option Value → Ordering :=
  compareLex (compareOn numberKey) (compareLex (compareOn textKey)
    (compareLex (compareOn boolKey) (compareOn rank)))

instance : TransCmp orderKeys := inferInstanceAs (TransCmp (compareLex _ _))

/-- Values of one kind are ordered by their keys. -/
theorem orderColumn_eq {left right : Option Value} {kind : String}
    (hleft : ∀ v, left = some v → v = .null ∨ Store.kindName v = kind)
    (hright : ∀ v, right = some v → v = .null ∨ Store.kindName v = kind) :
    orderColumn left right = orderKeys left right := by
  rcases left with _ | v <;> rcases right with _ | w
  · rfl
  · cases w <;> rfl
  · cases v <;> rfl
  · rcases hleft v rfl with rfl | hv
    · cases w <;> rfl
    rcases hright w rfl with rfl | hw
    · cases v <;> rfl
    have same : Store.kindName v = Store.kindName w := hv.trans hw.symm
    cases v <;> cases w <;>
      first
      | rfl
      | exact Ordering.then_eq.symm
      | simp [Store.kindName] at same

/-! Records -/

section records
variable {keys : List SortKey} {records : List Record}

theorem orderRecords_cons (key : SortKey) (keys : List SortKey) (a b : Record) :
    orderRecords (key :: keys) a b = (key.order a b).then (orderRecords keys a b) := by
  rw [orderRecords, List.map_cons, List.find?_cons]
  cases key.order a b <;> rfl

/-- A key puts the records of a collection in order if its column is in an order. -/
theorem transCmp_of_column {key : SortKey} {cmp : Option Value → Option Value → Ordering} [TransCmp cmp]
    (column : ∀ a b : {record // record ∈ records}, orderColumn (a.1.read key.path) (b.1.read key.path) =
      cmp (a.1.read key.path) (b.1.read key.path)) :
    TransCmp fun a b : {record // record ∈ records} => key.order a.1 b.1 := by
  simp only [SortKey.order, column]
  cases key.descending with
  | false =>
    simp only [Bool.false_eq_true, if_false]
    exact {
      eq_swap := OrientedCmp.eq_swap
      isLE_trans := TransCmp.isLE_trans }
  | true =>
    simp only [if_true, ← OrientedCmp.eq_swap]
    exact {
      eq_swap := OrientedCmp.eq_swap
      isLE_trans := fun hab hbc => TransCmp.isLE_trans hbc hab }

/-- A key whose column is of one kind puts the records of a collection in order. -/
theorem transCmp_order {key : SortKey} (h : OneKind records key.path) :
    TransCmp fun a b : {record // record ∈ records} => key.order a.1 b.1 := by
  obtain ⟨kind, hkind⟩ := h
  exact transCmp_of_column fun a b => orderColumn_eq (hkind a.1 a.2) (hkind b.1 b.2)

/-- The keys put the records of a collection in order. -/
def Orders (keys : List SortKey) (records : List Record) : Prop :=
  TransCmp fun a b : {record // record ∈ records} => orderRecords keys a.1 b.1

theorem Orders.mono {other : List Record} (h : Orders keys records) (sub : other ⊆ records) :
    Orders keys other where
  eq_swap {a b} := h.eq_swap (a := ⟨a.1, sub a.2⟩) (b := ⟨b.1, sub b.2⟩)
  isLE_trans {a b c} := h.isLE_trans (a := ⟨a.1, sub a.2⟩) (b := ⟨b.1, sub b.2⟩) (c := ⟨c.1, sub c.2⟩)

/-- Keys that each put the records of a collection in order do so together. -/
theorem orders_of_transCmp
    (h : ∀ key ∈ keys, TransCmp fun a b : {record // record ∈ records} => key.order a.1 b.1) :
    Orders keys records := by
  unfold Orders
  induction keys with
  | nil => exact { eq_swap := rfl, isLE_trans := fun _ _ => rfl }
  | cons key keys ih =>
    rw [List.forall_mem_cons] at h
    have hfirst := h.1
    have hrest := ih h.2
    have hlex : (fun a b : {record // record ∈ records} => orderRecords (key :: keys) a.1 b.1) =
        compareLex (fun a b => key.order a.1 b.1) fun a b => orderRecords keys a.1 b.1 := by
      funext a b
      exact orderRecords_cons key keys a.1 b.1
    rw [hlex]
    infer_instance

/-- Keys whose columns are of one kind put the records of a collection in order. -/
theorem orders_of_oneKind (h : ∀ key ∈ keys, OneKind records key.path) : Orders keys records :=
  orders_of_transCmp fun key hkey => transCmp_order (h key hkey)

/-- Records from the last to the first, by the keys. -/
def Reversed (keys : List SortKey) (sorted : List Record) : Prop :=
  sorted.Pairwise fun a b => (orderRecords keys a b).isGE

theorem insertReversed_of_isGE {r : Record} {sorted : List Record}
    (h : ∀ s ∈ sorted, (orderRecords keys r s).isGE) : insertReversed keys r sorted = r :: sorted := by
  cases sorted with
  | nil => rfl
  | cons s sorted =>
    have hs : orderRecords keys r s ≠ .lt := Ordering.isGE_iff_ne_lt.mp (h s List.mem_cons_self)
    rw [insertReversed, if_neg hs]

variable (h : Orders keys records) {r : Record} (hr : r ∈ records)
include h hr

theorem Reversed.le {s : Record} {sorted : List Record} (sub : s :: sorted ⊆ records)
    (reversed : Reversed keys (s :: sorted)) (hle : (orderRecords keys r s).isGE) :
    ∀ t ∈ s :: sorted, (orderRecords keys r t).isGE := by
  rw [List.forall_mem_cons]
  refine ⟨hle, fun t ht => ?_⟩
  have hst : (orderRecords keys s t).isGE := (List.pairwise_cons.mp reversed).1 t ht
  exact h.isGE_trans (a := ⟨r, hr⟩) (b := ⟨s, sub List.mem_cons_self⟩)
    (c := ⟨t, sub (List.mem_cons_of_mem _ ht)⟩) hle hst

theorem Reversed.insert {sorted : List Record} (sub : sorted ⊆ records)
    (reversed : Reversed keys sorted) : Reversed keys (insertReversed keys r sorted) := by
  induction sorted with
  | nil => exact List.pairwise_singleton ..
  | cons s sorted ih =>
    obtain ⟨hs, hsorted⟩ := List.cons_subset.mp sub
    obtain ⟨first, below⟩ := List.pairwise_cons.mp reversed
    unfold insertReversed
    split
    · rename_i hlt
      refine List.pairwise_cons.mpr ⟨fun t ht => ?_, ih hsorted below⟩
      rcases List.mem_cons.mp ((perm_insertReversed keys r sorted).mem_iff.mp ht) with rfl | ht
      · have hgt : orderRecords keys s t = .gt :=
          h.toOrientedCmp.gt_of_lt (a := ⟨t, hr⟩) (b := ⟨s, hs⟩) hlt
        rw [hgt]
        rfl
      · exact first t ht
    · rename_i hle
      exact List.pairwise_cons.mpr
        ⟨Reversed.le h hr sub reversed (Ordering.isGE_iff_ne_lt.mpr hle), reversed⟩

theorem filter_insertReversed (p : Record → Bool) {sorted : List Record} (sub : sorted ⊆ records)
    (reversed : Reversed keys sorted) :
    (insertReversed keys r sorted).filter p =
      if p r then insertReversed keys r (sorted.filter p) else sorted.filter p := by
  induction sorted with
  | nil => cases hp : p r <;> simp [insertReversed, hp]
  | cons s sorted ih =>
    have ih := ih (List.cons_subset.mp sub).2 (List.pairwise_cons.mp reversed).2
    rw [insertReversed]
    split
    · rename_i hlt
      rw [List.filter_cons, ih, List.filter_cons]
      cases p s <;> cases p r <;> simp [insertReversed, hlt]
    · rename_i hle
      have all := Reversed.le h hr sub reversed (Ordering.isGE_iff_ne_lt.mpr hle)
      have kept : insertReversed keys r ((s :: sorted).filter p) = r :: (s :: sorted).filter p :=
        insertReversed_of_isGE fun t ht => all t (List.mem_of_mem_filter ht)
      rw [kept, List.filter_cons (x := r)]

omit hr

theorem Orders.filter_sortRecords (p : Record → Bool) :
    (sortRecords keys records).filter p = sortRecords keys (records.filter p) := by
  have run (rest sorted : List Record) (hrest : rest ⊆ records) (hsorted : sorted ⊆ records)
      (reversed : Reversed keys sorted) :
      (rest.foldl (fun sorted s => insertReversed keys s sorted) sorted).filter p =
        (rest.filter p).foldl (fun sorted s => insertReversed keys s sorted) (sorted.filter p) := by
    induction rest generalizing sorted with
    | nil => rfl
    | cons s rest ih =>
      obtain ⟨hs, hrest⟩ := List.cons_subset.mp hrest
      have sub : insertReversed keys s sorted ⊆ records := fun t ht =>
        List.cons_subset.mpr ⟨hs, hsorted⟩ ((perm_insertReversed keys s sorted).subset ht)
      rw [List.foldl_cons, ih _ hrest sub (reversed.insert h hs hsorted),
        filter_insertReversed h hs p hsorted reversed, List.filter_cons]
      cases p s <;> rfl
  unfold sortRecords
  cases keys.isEmpty with
  | true => rfl
  | false =>
    simp only [Bool.false_eq_true, if_false]
    rw [List.filter_reverse, run records [] (List.Subset.refl _) (List.nil_subset _) List.Pairwise.nil]
    rfl

theorem Orders.pairwise_sortRecords :
    (sortRecords keys records).Pairwise fun a b => (orderRecords keys a b).isLE := by
  have run (rest sorted : List Record) (hrest : rest ⊆ records) (hsorted : sorted ⊆ records)
      (reversed : Reversed keys sorted) :
      Reversed keys (rest.foldl (fun sorted s => insertReversed keys s sorted) sorted) := by
    induction rest generalizing sorted with
    | nil => exact reversed
    | cons s rest ih =>
      obtain ⟨hs, hrest⟩ := List.cons_subset.mp hrest
      refine ih _ hrest (fun t ht => ?_) (reversed.insert h hs hsorted)
      exact List.cons_subset.mpr ⟨hs, hsorted⟩ ((perm_insertReversed keys s sorted).subset ht)
  unfold sortRecords
  cases hkeys : keys.isEmpty with
  | true =>
    obtain rfl := List.isEmpty_iff.mp hkeys
    exact List.pairwise_of_forall fun _ _ => rfl
  | false =>
    have reversed := run records [] (List.Subset.refl _) (List.nil_subset _) List.Pairwise.nil
    have sub : records.foldl (fun sorted s => insertReversed keys s sorted) [] ⊆ records := by
      intro s hs
      refine mem_sortRecords.mp (?_ : s ∈ sortRecords keys records)
      simpa [sortRecords, hkeys] using hs
    simp only [Bool.false_eq_true, if_false, List.pairwise_reverse]
    refine reversed.imp_of_mem fun {a b} ha hb hge => ?_
    exact h.toOrientedCmp.isLE_of_isGE (a := ⟨b, sub hb⟩) (b := ⟨a, sub ha⟩) hge

omit h

/-- Records may be left out before or after sorting. -/
theorem filter_sortRecords (h : ∀ key ∈ keys, OneKind records key.path) (p : Record → Bool) :
    (sortRecords keys records).filter p = sortRecords keys (records.filter p) :=
  (orders_of_oneKind h).filter_sortRecords p

/-- Sorted records are in the order of the keys. -/
theorem pairwise_sortRecords (h : ∀ key ∈ keys, OneKind records key.path) :
    (sortRecords keys records).Pairwise fun a b => (orderRecords keys a b).isLE :=
  (orders_of_oneKind h).pairwise_sortRecords

/-! Strict orders -/

/-- The keys put the records of a collection in order, and no two of them in the same place. -/
structure StrictlyOrders (keys : List SortKey) (records : List Record) : Prop where
  orders : Orders keys records
  strict : ∀ a ∈ records, ∀ b ∈ records, orderRecords keys a b = .eq → a = b

/-- In a strict order it does not matter in which order records were before. -/
theorem StrictlyOrders.sortRecords_eq (h : StrictlyOrders keys records) {some other : List Record}
    (sub : some ⊆ records) (perm : some.Perm other) : sortRecords keys some = sortRecords keys other := by
  have sub' : other ⊆ records := fun record hrecord => sub (perm.mem_iff.mpr hrecord)
  refine List.Perm.eq_of_pairwise (fun a b ha hb hab hba => ?_)
    (h.orders.mono sub).pairwise_sortRecords (h.orders.mono sub').pairwise_sortRecords
    (((perm_sortRecords keys some).trans perm).trans (perm_sortRecords keys other).symm)
  have ha := sub (mem_sortRecords.mp ha)
  have hb := sub' (mem_sortRecords.mp hb)
  refine h.strict a ha b hb ?_
  have hge : (orderRecords keys a b).isGE :=
    h.orders.toOrientedCmp.isGE_of_isLE (a := ⟨a, ha⟩) (b := ⟨b, hb⟩) hba
  exact Ordering.eq_eq_of_isLE_of_isGE hab hge

end records
end RecordGraph
