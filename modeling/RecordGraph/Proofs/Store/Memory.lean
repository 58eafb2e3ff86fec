import RecordGraph.Predicate.Build
import RecordGraph.Proofs.Expr.Eval
import RecordGraph.Store.Memory

/-!
Reading from memory. Every record that is read satisfies the predicate it was read under, and with it
each of the predicates that were joined to make it.
-/
namespace RecordGraph

/-! Sorting and cutting -/

theorem perm_insertReversed (keys : List SortKey) (r : Record) (rs : List Record) :
    (insertReversed keys r rs).Perm (r :: rs) := by
  induction rs with
  | nil => exact .refl _
  | cons s rs ih =>
    unfold insertReversed
    split
    · exact (ih.cons s).trans (.swap r s rs)
    · exact .refl _

theorem perm_sortRecords (keys : List SortKey) (rs : List Record) : (sortRecords keys rs).Perm rs := by
  have run (sorted : List Record) :
      (rs.foldl (fun sorted s => insertReversed keys s sorted) sorted).Perm (rs ++ sorted) := by
    induction rs generalizing sorted with
    | nil => exact .refl _
    | cons s rs ih =>
      rw [List.foldl_cons, List.cons_append]
      exact (ih _).trans (((perm_insertReversed keys s sorted).append_left rs).trans List.perm_middle)
  unfold sortRecords
  split
  · exact .refl _
  · exact (List.reverse_perm _).trans (by simpa using run [])

theorem mem_sortRecords {keys : List SortKey} {r : Record} {rs : List Record} :
    r ∈ sortRecords keys rs ↔ r ∈ rs := (perm_sortRecords keys rs).mem_iff

namespace Store

theorem mem_of_mem_window {offset : UInt64} {limit : Option UInt64} {r : Record} {rs : List Record}
    (h : r ∈ window offset limit rs) : r ∈ rs := by
  unfold window at h
  cases limit with
  | none => exact List.mem_of_mem_drop h
  | some n => exact List.mem_of_mem_drop (List.mem_of_mem_take h)

/-! Selecting -/

theorem select_eq_ok_filter {predicate : Option Value} {keep : Record → Bool} {rs : List Record}
    (h : ∀ r ∈ rs, isMatch predicate r = .ok (keep r)) : select predicate rs = .ok (rs.filter keep) := by
  induction rs with
  | nil => rfl
  | cons s rs ih =>
    rw [List.forall_mem_cons] at h
    rw [select, h.1, ih h.2, List.filter_cons]
    rfl

/-- Records can be selected from if the predicate has a value on each of them. -/
theorem select_eq_ok {predicate : Option Value} {rs found : List Record} :
    select predicate rs = .ok found ↔ (∀ r ∈ rs, ∃ keep, isMatch predicate r = .ok keep) ∧
      found = rs.filter fun r => (isMatch predicate r).toOption.getD false := by
  constructor
  · intro h
    have all : ∀ r ∈ rs, ∃ keep, isMatch predicate r = .ok keep := by
      induction rs generalizing found with
      | nil => simp
      | cons s rs ih =>
        obtain ⟨keep, hkeep, h⟩ := Except.monad_bind_eq_ok.mp h
        obtain ⟨rest, hrest, -⟩ := Except.monad_bind_eq_ok.mp h
        exact List.forall_mem_cons.mpr ⟨⟨keep, hkeep⟩, ih hrest⟩
    exact ⟨all, Except.ok.inj (h.symm.trans
      (select_eq_ok_filter fun r hr => Except.toOption_getD (all r hr)))⟩
  · rintro ⟨all, rfl⟩
    exact select_eq_ok_filter fun r hr => Except.toOption_getD (all r hr)

theorem isMatch_of_select {predicate : Option Value} {rs found : List Record}
    (h : select predicate rs = .ok found) : ∀ r ∈ found, isMatch predicate r = .ok true := by
  obtain ⟨all, rfl⟩ := select_eq_ok.mp h
  intro r hr
  obtain ⟨hr, kept⟩ := List.mem_filter.mp hr
  obtain ⟨keep, hkeep⟩ := all r hr
  rw [hkeep] at kept ⊢
  exact congrArg Except.ok kept

theorem select_eq_filter {predicate : Option Value} {rs found : List Record} {keep : Record → Bool}
    (h : select predicate rs = .ok found)
    (hkeep : ∀ r ∈ rs, (keep r = true ↔ isMatch predicate r = .ok true)) : found = rs.filter keep := by
  obtain ⟨all, rfl⟩ := select_eq_ok.mp h
  refine List.filter_congr fun r hr => Bool.eq_iff_iff.mpr ?_
  obtain ⟨matched, hmatched⟩ := all r hr
  rw [hkeep r hr, hmatched, Except.ok.injEq]
  rfl

/-- A page is cut from the sorted records that satisfy the predicate. -/
theorem isMatch_of_page {predicate : Option Value} {rs found : List Record} {keys : List SortKey}
    {offset : UInt64} {limit : Option UInt64} (h : select predicate rs = .ok found) :
    ∀ r ∈ window offset limit (sortRecords keys found), isMatch predicate r = .ok true :=
  fun r hr => isMatch_of_select h r (mem_sortRecords.mp (mem_of_mem_window hr))

theorem isMatch_of_fetch {store : Store} {request : Fetch} {fetched : Fetched}
    (h : store.fetch request = .ok fetched) :
    ∀ r ∈ fetched.records, isMatch request.predicate r = .ok true := by
  obtain ⟨records, -, h⟩ := Except.monad_bind_eq_ok.mp h
  obtain ⟨found, hfound, h⟩ := Except.monad_bind_eq_ok.mp h
  cases h
  exact isMatch_of_page hfound

theorem isMatch_of_fetchRelated {store : Store} {request : FetchRelated}
    {groups : List (String × List Record)} (h : store.fetchRelated request = .ok groups) :
    ∀ group ∈ groups, ∀ r ∈ group.2, isMatch request.predicate r = .ok true := by
  obtain ⟨parents, -, h⟩ := Except.monad_bind_eq_ok.mp h
  obtain ⟨targets, -, h⟩ := Except.monad_bind_eq_ok.mp h
  intro group hgroup
  obtain ⟨id, -, h⟩ := (Except.mapM_eq_ok.mp h).exists_left hgroup
  obtain ⟨found, hfound, h⟩ := Except.monad_bind_eq_ok.mp h
  cases h
  exact isMatch_of_page hfound

/-! Reading -/

/-- The records of a collection, none if there is no such collection. -/
def records (store : Store) (source : String) : List Record :=
  (store.collection source).toOption.getD []

/-- What is fetched is stored. -/
theorem fetch_subset {store : Store} {request : Fetch} {fetched : Fetched}
    (h : store.fetch request = .ok fetched) : fetched.records ⊆ store.records request.source := by
  obtain ⟨rs, hrs, h⟩ := Except.monad_bind_eq_ok.mp h
  obtain ⟨found, hfound, h⟩ := Except.monad_bind_eq_ok.mp h
  cases h
  obtain ⟨-, rfl⟩ := select_eq_ok.mp hfound
  rw [records, hrs]
  exact fun record hrecord => List.mem_of_mem_filter (mem_sortRecords.mp (mem_of_mem_window hrecord))

theorem collection_eq_records {store : Store} {source : String} {rs : List Record}
    (h : store.collection source = .ok rs) : store.collection source = .ok (store.records source) := by
  rw [records, h]
  rfl

theorem fetch_eq_ok {store : Store} {request : Fetch} {fetched : Fetched}
    (count : request.count = false) :
    store.fetch request = .ok fetched ↔ (∃ rs, store.collection request.source = .ok rs) ∧
      ∃ found, select request.predicate (store.records request.source) = .ok found ∧
        fetched = ⟨window request.offset request.limit (sortRecords request.sort found), none⟩ := by
  rw [fetch, Except.monad_bind_eq_ok]
  constructor
  · rintro ⟨rs, hrs, h⟩
    obtain ⟨found, hfound, h⟩ := Except.monad_bind_eq_ok.mp h
    rw [count] at h
    rw [records, hrs]
    exact ⟨⟨rs, rfl⟩, found, hfound, (Except.ok.inj h).symm⟩
  · rintro ⟨⟨rs, hrs⟩, found, hfound, rfl⟩
    refine ⟨_, collection_eq_records hrs, Except.monad_bind_eq_ok.mpr ⟨found, hfound, ?_⟩⟩
    rw [count]
    rfl

/-- The targets of the parent with an id. -/
def targetsOf (store : Store) (request : FetchRelated) (id : String) :
    Except StoreError (List Record) :=
  (select request.predicate (candidates request.relation (store.records request.relation.source)
    (store.records request.relation.target) id)).map fun found =>
      window request.offset request.limit (sortRecords request.sort found)

/-- The targets of several parents are those of each. -/
theorem fetchRelated_eq_ok {store : Store} {request : FetchRelated}
    {groups : List (String × List Record)} :
    store.fetchRelated request = .ok groups ↔
      ((∃ rs, store.collection request.relation.source = .ok rs) ∧
        ∃ rs, store.collection request.relation.target = .ok rs) ∧
      (∀ id ∈ (request.parents.map idText).eraseDups,
        ∃ found, store.targetsOf request id = .ok found) ∧
      groups = (request.parents.map idText).eraseDups.map fun id =>
        (id, (store.targetsOf request id).toOption.getD []) := by
  rw [← Except.mapM_key_eq_ok]
  have run {parents targets : List Record}
      (hparents : store.collection request.relation.source = .ok parents)
      (htargets : store.collection request.relation.target = .ok targets) :
      store.fetchRelated request = (request.parents.map idText).eraseDups.mapM fun id =>
        (store.targetsOf request id).map (id, ·) := by
    have hsource : store.records request.relation.source = parents := by rw [records, hparents]; rfl
    have htarget : store.records request.relation.target = targets := by rw [records, htargets]; rfl
    rw [fetchRelated, hparents, htargets]
    refine Except.mapM_congr fun id _ => ?_
    rw [targetsOf, hsource, htarget]
    dsimp only
    cases hselect : select request.predicate (candidates request.relation parents targets id) <;>
      simp [Except.monad_bind, Except.monad_pure]
  constructor
  · intro h
    obtain ⟨parents, hparents, hrest⟩ := Except.monad_bind_eq_ok.mp h
    obtain ⟨targets, htargets, -⟩ := Except.monad_bind_eq_ok.mp hrest
    exact ⟨⟨⟨parents, hparents⟩, targets, htargets⟩, (run hparents htargets).symm.trans h⟩
  · rintro ⟨⟨⟨parents, hparents⟩, targets, htargets⟩, h⟩
    exact (run hparents htargets).trans h

theorem mem_of_mem_linked {key : String} {targets : List Record} {v : Value} {r : Record}
    (h : r ∈ linked key targets v) : r ∈ targets := by
  cases v with
  | arr ids =>
    obtain ⟨id, -, h⟩ := List.mem_filterMap.mp h
    exact List.mem_of_find?_eq_some h
  | _ => exact List.mem_of_mem_filter h

theorem mem_of_mem_candidates {relation : Relation} {parents targets : List Record} {parent : String}
    {r : Record} (h : r ∈ candidates relation parents targets parent) : r ∈ targets := by
  unfold candidates at h
  dsimp only at h
  split at h
  · exact mem_of_mem_linked h
  · exact List.mem_of_mem_filter h
  · cases h

theorem mem_of_mem_targetsOf {store : Store} {request : FetchRelated} {id : String}
    {found : List Record} (h : store.targetsOf request id = .ok found) :
    ∀ r ∈ found, r ∈ store.records request.relation.target := by
  obtain ⟨selected, hselected, rfl⟩ := Except.map_eq_ok.mp h
  intro r hr
  have hmem := mem_sortRecords.mp (mem_of_mem_window hr)
  rw [(select_eq_ok.mp hselected).2] at hmem
  exact mem_of_mem_candidates (List.mem_of_mem_filter hmem)

/-! Joined predicates -/

theorem isMatch_some {p : Value} {r : Record} :
    isMatch (some p) r = .ok true ↔ Expr.Holds (.node "fields" (.obj r)) p := by
  cases hv : Expr.eval (.node "fields" (.obj r)) p <;> simp [isMatch, Expr.Holds, hv]

/-- Joined predicates are asked one after the other, up to the first that fails. -/
theorem isMatch_conjoin_eq (ps : List Value) (r : Record) :
    isMatch (conjoin ps) r =
      (Expr.evalAll (.node "fields" (.obj r)) ps).mapError StoreError.predicate := by
  rcases ps with _ | ⟨p, _ | ⟨q, ps⟩⟩
  · rfl
  · rw [conjoin, isMatch, Expr.evalAll]
    cases Expr.eval (.node "fields" (.obj r)) p with
    | error e => rfl
    | ok v => cases hv : Expr.truthy v <;> simp [hv, Expr.evalAll, Except.mapError]
  · have joined : conjoin (p :: q :: ps) = some (.node "and" (.arr (p :: q :: ps))) := rfl
    rw [joined, isMatch, Expr.eval_node_all _ rfl (by simp)]
    cases Expr.evalAll (.node "fields" (.obj r)) (p :: q :: ps) <;> rfl

theorem isMatch_conjoin_cons {p : Value} {ps : List Value} {r : Record} {keep : Bool}
    (h : isMatch (some p) r = .ok keep) :
    isMatch (conjoin (p :: ps)) r = if keep then isMatch (conjoin ps) r else .ok false := by
  rw [isMatch_conjoin_eq, isMatch_conjoin_eq, Expr.evalAll]
  rw [isMatch] at h
  cases hv : Expr.eval (.node "fields" (.obj r)) p with
  | error e =>
    rw [hv] at h
    cases h
  | ok v =>
    rw [hv] at h
    cases h
    rw [Except.ok_bind]
    cases Expr.truthy v <;> rfl

/-- A record satisfies joined predicates if it satisfies each of them. -/
theorem isMatch_conjoin {ps : List Value} {r : Record} :
    isMatch (conjoin ps) r = .ok true ↔ ∀ p ∈ ps, isMatch (some p) r = .ok true := by
  simp only [isMatch_some]
  rw [isMatch_conjoin_eq, ← Expr.evalAll_eq_true]
  cases Expr.evalAll (.node "fields" (.obj r)) ps <;> simp [Except.mapError]

/-- Predicates that are all decided are decided together. -/
theorem isMatch_conjoin_of_forall₂ {α : Type} {holds : α → Bool} {xs : List α} {ps : List Value}
    {record : Record} (each : List.Forall₂ (fun x p => isMatch (some p) record = .ok (holds x)) xs ps) :
    isMatch (conjoin ps) record = .ok (xs.all holds) := by
  induction each with
  | nil => rfl
  | @cons x p xs ps first _ ih =>
    rw [isMatch_conjoin_cons first, ih, List.all_cons]
    cases holds x <;> rfl

theorem exists_conjoin {ps : List Value} (filled : ps ≠ []) : ∃ p, conjoin ps = some p := by
  rcases ps with _ | ⟨p, _ | ⟨q, ps⟩⟩
  · exact absurd rfl filled
  · exact ⟨p, rfl⟩
  · exact ⟨_, rfl⟩

end Store
end RecordGraph
