import RecordGraph.Proofs.Store.Sorting

/-!
When records can be put in order. Two records compare the other way round in the opposite order,
whatever they hold. Every arrangement of some records is sorted right exactly if comparing is transitive
on them. This is so where no column holds a value beside two that differ and that it is not compared
with, and for a single key only there.
-/
namespace RecordGraph
open Std

/-! Comparing the other way round -/

theorem orderColumn_swap (left right : Option Value) :
    orderColumn right left = (orderColumn left right).swap := by
  have ranks : compare (rank right) (rank left) = (compare (rank left) (rank right)).swap :=
    OrientedCmp.eq_swap
  rcases left with _ | v <;> rcases right with _ | w <;> try exact ranks
  simp only [orderColumn, Expr.order_swap v w, ranks]
  cases Expr.order v w <;> rfl

theorem SortKey.order_swap (key : SortKey) (a b : Record) : key.order b a = (key.order a b).swap := by
  unfold SortKey.order
  rw [orderColumn_swap]
  cases key.descending <;> rfl

theorem orderRecords_swap (keys : List SortKey) (a b : Record) :
    orderRecords keys b a = (orderRecords keys a b).swap := by
  induction keys with
  | nil => rfl
  | cons key keys ih => rw [orderRecords_cons, orderRecords_cons, key.order_swap, ih, Ordering.swap_then]

theorem isLE_orderRecords {keys : List SortKey} {a b : Record} :
    (orderRecords keys a b).isLE ↔ orderRecords keys b a ≠ .lt := by
  rw [orderRecords_swap keys a b]
  cases orderRecords keys a b <;> simp

theorem orderRecords_single (key : SortKey) (a b : Record) : orderRecords [key] a b = key.order a b := by
  rw [orderRecords_cons]
  exact Ordering.then_eq

theorem orderRecords_single_eq {key : SortKey} {a b : Record}
    (h : orderColumn (a.read key.path) (b.read key.path) = .eq) : orderRecords [key] a b = .eq := by
  rw [orderRecords_single, SortKey.order, h]
  cases key.descending <;> rfl

/-! Columns -/

theorem rank_some {v : Value} (h : v ≠ .null) : rank (some v) = 1 := by
  cases v <;> first | rfl | exact absurd rfl h

theorem Expr.ne_null_of_order {v w : Value} (h : (Expr.order v w).isSome) : v ≠ .null ∧ w ≠ .null := by
  constructor
  · rintro rfl
    cases w <;> cases h
  · rintro rfl
    cases v <;> cases h

/-- A column that holds two values which differ holds no value of another kind, null apart. -/
def Coherent (records : List Record) (path : String) : Prop :=
  ∀ a ∈ records, ∀ b ∈ records, ∀ c ∈ records, ∀ v w u, a.read path = some v → b.read path = some w →
    c.read path = some u → Expr.order v w = some .lt → u = .null ∨ Store.kindName u = Store.kindName v

section column
variable {records : List Record} {path : String}

theorem OneKind.coherent (h : OneKind records path) : Coherent records path := by
  obtain ⟨kind, hkind⟩ := h
  intro a ha b hb c hc v w u hv hw hu hlt
  obtain ⟨hvnull, -⟩ := Expr.ne_null_of_order (v := v) (w := w) (by rw [hlt]; rfl)
  have known := (hkind a ha v hv).resolve_left hvnull
  exact (hkind c hc u hu).imp_right fun hu => hu.trans known.symm

/-- A coherent column is of one kind, or tells records apart by rank only. -/
theorem Coherent.cases (h : Coherent records path) : OneKind records path ∨
    ∀ a ∈ records, ∀ b ∈ records,
      orderColumn (a.read path) (b.read path) = compareOn rank (a.read path) (b.read path) := by
  by_cases differ : ∃ a ∈ records, ∃ b ∈ records, ∃ v w, a.read path = some v ∧
      b.read path = some w ∧ Expr.order v w = some .lt
  · obtain ⟨a, ha, b, hb, v, w, hv, hw, hlt⟩ := differ
    exact .inl ⟨Store.kindName v, fun c hc u hu => h a ha b hb c hc v w u hv hw hu hlt⟩
  · refine .inr fun a ha b hb => ?_
    cases hv : a.read path with
    | none => rfl
    | some v =>
      cases hw : b.read path with
      | none => rfl
      | some w =>
        have notLess : Expr.order v w ≠ some .lt := fun hlt =>
          differ ⟨a, ha, b, hb, v, w, hv, hw, hlt⟩
        have notGreater : Expr.order v w ≠ some .gt := fun hgt =>
          differ ⟨b, hb, a, ha, w, v, hw, hv, by rw [Expr.order_swap v w, hgt]; rfl⟩
        rw [orderColumn, compareOn]
        rcases hvw : Expr.order v w with _ | _ | _ | _
        · rfl
        · exact absurd hvw notLess
        · obtain ⟨hvnull, hwnull⟩ := Expr.ne_null_of_order (v := v) (w := w) (by rw [hvw]; rfl)
          rw [rank_some hvnull, rank_some hwnull]
          rfl
        · exact absurd hvw notGreater

/-- Values of different kinds are not told apart. -/
theorem orderColumn_eq_of_kinds {v w : Value} (hv : v ≠ .null) (hw : w ≠ .null)
    (kinds : Store.kindName v ≠ Store.kindName w) : orderColumn (some v) (some w) = .eq := by
  have apart : Expr.order v w = none := by
    rw [← Option.not_isSome_iff_eq_none]
    exact fun hsome => kinds (Expr.kindName_eq_of_order hsome)
  rw [orderColumn, apart, rank_some hv, rank_some hw]
  rfl

end column

/-! Collections -/

/-- Comparing by the keys is transitive on the records. -/
def IsTransitive (keys : List SortKey) (records : List Record) : Prop :=
  ∀ a ∈ records, ∀ b ∈ records, ∀ c ∈ records, (orderRecords keys a b).isLE →
    (orderRecords keys b c).isLE → (orderRecords keys a c).isLE

section collection
variable {keys : List SortKey} {records : List Record}

theorem orders_iff : Orders keys records ↔ IsTransitive keys records := by
  constructor
  · intro h a ha b hb c hc
    exact h.isLE_trans (a := ⟨a, ha⟩) (b := ⟨b, hb⟩) (c := ⟨c, hc⟩)
  · intro h
    exact {
      eq_swap := fun {a b} => orderRecords_swap keys b.1 a.1
      isLE_trans := fun {a b c} => h a.1 a.2 b.1 b.2 c.1 c.2 }

/-- Coherent columns put the records of a collection in order. -/
theorem orders_of_coherent (h : ∀ key ∈ keys, Coherent records key.path) : Orders keys records := by
  refine orders_of_transCmp fun key hkey => ?_
  obtain oneKind | ranked := (h key hkey).cases
  · exact transCmp_order oneKind
  · exact transCmp_of_column fun a b => ranked a.1 a.2 b.1 b.2

/-- Records whose neighbours are in order stay as they are. -/
theorem sortRecords_of_isChain (h : records.IsChain fun a b => orderRecords keys b a ≠ .lt) :
    sortRecords keys records = records := by
  have run (r : Record) (rest before : List Record)
      (chain : (r :: rest).IsChain fun a b => orderRecords keys b a ≠ .lt) :
      rest.foldl (fun sorted s => insertReversed keys s sorted) (r :: before) =
        rest.reverse ++ r :: before := by
    induction rest generalizing r before with
    | nil => rfl
    | cons s rest ih =>
      obtain ⟨next, chain⟩ := List.isChain_cons_cons.mp chain
      rw [List.foldl_cons, insertReversed, if_neg next, ih s (r :: before) chain]
      simp
  unfold sortRecords
  split
  · rfl
  · cases records with
    | nil => rfl
    | cons r rest =>
      rw [List.foldl_cons, insertReversed, run r rest [] h]
      simp

/-- Comparing is transitive exactly if all arrangements of the records are sorted right. -/
theorem isTransitive_iff_sorted : IsTransitive keys records ↔ ∀ chosen ⊆ records,
    (sortRecords keys chosen).Pairwise fun a b => orderRecords keys b a ≠ .lt := by
  constructor
  · intro h chosen sub
    exact ((orders_iff.mpr h).mono sub).pairwise_sortRecords.imp isLE_orderRecords.mp
  · intro sorted a ha b hb c hc hab hbc
    have stays : sortRecords keys [a, b, c] = [a, b, c] :=
      sortRecords_of_isChain (.cons_cons (isLE_orderRecords.mp hab)
        (.cons_cons (isLE_orderRecords.mp hbc) (.singleton c)))
    have pairs := sorted [a, b, c] (by simp [ha, hb, hc])
    rw [stays] at pairs
    exact isLE_orderRecords.mpr ((List.pairwise_cons.mp pairs).1 c (by simp))

/-- A key that puts the records in order has a coherent column. -/
theorem IsTransitive.coherent {key : SortKey} (h : IsTransitive [key] records) :
    Coherent records key.path := by
  intro a ha b hb c hc v w u hv hw hu hlt
  by_contra other
  obtain ⟨hnull, kinds⟩ := not_or.mp other
  have compared : (Expr.order v w).isSome := by
    rw [hlt]
    rfl
  have same := Expr.kindName_eq_of_order compared
  obtain ⟨hvnull, hwnull⟩ := Expr.ne_null_of_order compared
  -- the value of another kind ties with both, which are then tied with each other
  have ac : orderRecords [key] a c = .eq := orderRecords_single_eq (by
    rw [hv, hu, orderColumn_eq_of_kinds hvnull hnull fun h => kinds h.symm])
  have bc : orderRecords [key] b c = .eq := orderRecords_single_eq (by
    rw [hw, hu, orderColumn_eq_of_kinds hwnull hnull fun h => kinds (h.symm.trans same.symm)])
  have cb : orderRecords [key] c b = .eq := by rw [orderRecords_swap [key] b c, bc, Ordering.swap_eq]
  have ca : orderRecords [key] c a = .eq := by rw [orderRecords_swap [key] a c, ac, Ordering.swap_eq]
  have ab := h a ha c hc b hb (by rw [ac]; rfl) (by rw [cb]; rfl)
  have ba := h b hb c hc a ha (by rw [bc]; rfl) (by rw [ca]; rfl)
  have column : orderColumn (a.read key.path) (b.read key.path) = .lt := by
    rw [hv, hw, orderColumn, hlt]
    rfl
  rw [orderRecords_swap [key] a b] at ba
  rw [orderRecords_single, SortKey.order, column] at ab ba
  cases hdown : key.descending <;> simp [hdown] at ab ba

end collection

/-- Two records compare the other way round in the opposite order. Comparing is transitive on records
exactly if however they are arranged, and whichever are left out, sorting leaves none behind one that it
comes before; it is so where the columns are coherent, and for a single key only there. -/
theorem orderRecords_preorder (keys : List SortKey) (records : List Record) :
    (∀ a b, orderRecords keys b a = (orderRecords keys a b).swap) ∧
    (IsTransitive keys records ↔ ∀ chosen ⊆ records,
      (sortRecords keys chosen).Pairwise fun a b => orderRecords keys b a ≠ .lt) ∧
    ((∀ key ∈ keys, Coherent records key.path) → IsTransitive keys records) ∧
    ∀ key, keys = [key] → IsTransitive keys records → Coherent records key.path := by
  refine ⟨orderRecords_swap keys, isTransitive_iff_sorted, fun h => orders_iff.mp (orders_of_coherent h), ?_⟩
  rintro key rfl transitive
  exact transitive.coherent

/-- A truth value and a text beside each other, which are not compared, and below them two texts. -/
theorem orderRecords_preorder_marks :
    let records : List Record :=
      [[("mark", .bool true), ("name", .str "b")], [("mark", .str "x"), ("name", .str "a")]]
    let keys : List SortKey := [⟨"mark", true⟩, ⟨"name", false⟩]
    (∀ key ∈ keys, Coherent records key.path) ∧ IsTransitive keys records ∧
      IsTransitive [⟨"mark", true⟩] records ∧ Coherent records "mark" := by
  intro records keys
  have mark : Coherent records "mark" := by
    intro a ha b hb c hc v w u hv hw hu hlt
    simp only [records, List.mem_cons, List.not_mem_nil, or_false] at ha hb
    rcases ha with rfl | rfl <;> rcases hb with rfl | rfl <;> cases hv <;> cases hw <;> cases hlt
  have name : Coherent records "name" := by
    refine OneKind.coherent ⟨"string", fun record hrecord v hv => .inr ?_⟩
    simp only [records, List.mem_cons, List.not_mem_nil, or_false] at hrecord
    rcases hrecord with rfl | rfl <;> cases hv <;> rfl
  obtain ⟨-, -, transitive, coherent⟩ := orderRecords_preorder [⟨"mark", true⟩] records
  have single := transitive (by simpa using mark)
  have both : ∀ key ∈ keys, Coherent records key.path := by simpa [keys] using ⟨mark, name⟩
  exact ⟨both, (orderRecords_preorder keys records).2.2.1 both, single, coherent _ rfl single⟩

/-- A truth value between two texts: the first does not come behind it, nor it behind the last, and the
last comes before the first. Sorted, they stay as they are. -/
theorem orderRecords_not_transitive :
    let key : SortKey := ⟨"mark", false⟩
    let b : Record := [("mark", .str "b")]
    let yes : Record := [("mark", .bool true)]
    let a : Record := [("mark", .str "a")]
    (orderRecords [key] b yes).isLE ∧ (orderRecords [key] yes a).isLE ∧
      ¬(orderRecords [key] b a).isLE ∧ sortRecords [key] [b, yes, a] = [b, yes, a] ∧
      orderRecords [key] a b = .lt := by
  refine ⟨rfl, rfl, by decide, rfl, by decide⟩

end RecordGraph
