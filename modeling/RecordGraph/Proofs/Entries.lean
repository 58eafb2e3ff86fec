import Mathlib.Data.List.Basic
import Mathlib.Data.String.Basic
import RecordGraph.Value.Entries

/-!
Keys of maps: a map built from pairs has the keys of the pairs and no others, in their order. Maps in
order are told apart by what stands under their keys.
-/
namespace RecordGraph.Entries
variable {α : Type}

theorem mem_keys_insert {key k : String} {value : α} {es : Entries α} :
    k ∈ (es.insert key value).keys ↔ k = key ∨ k ∈ es.keys := by
  induction es with
  | nil => simp [insert, keys]
  | cons e es ih =>
    obtain ⟨k', v⟩ := e
    unfold insert
    by_cases hlt : key < k'
    · simp [hlt, keys]
    · by_cases heq : key = k'
      · subst heq
        simp [keys]
      · simp only [keys] at ih
        simp only [hlt, heq, if_false, keys, List.map_cons, List.mem_cons, ih]
        exact or_left_comm

theorem mem_keys_ofList {k : String} {pairs : List (String × α)} :
    k ∈ (ofList pairs).keys ↔ k ∈ pairs.map Prod.fst := by
  have run (es : Entries α) : k ∈ (pairs.foldl (fun es p => es.insert p.1 p.2) es).keys ↔
      k ∈ pairs.map Prod.fst ∨ k ∈ es.keys := by
    induction pairs generalizing es with
    | nil => simp
    | cons p pairs ih =>
      rw [List.foldl_cons, ih, mem_keys_insert, List.map_cons, List.mem_cons]
      exact or_left_comm.trans or_assoc.symm
  rw [ofList, run]
  simp [keys]

theorem mem_of_mem_insert {key : String} {value : α} {es : Entries α} {e : String × α}
    (h : e ∈ es.insert key value) : e = (key, value) ∨ e ∈ es := by
  induction es with
  | nil => exact .inl (List.mem_singleton.mp h)
  | cons first es ih =>
    unfold insert at h
    split at h
    · exact List.mem_cons.mp h
    · split at h
      · exact (List.mem_cons.mp h).imp_right (List.mem_cons_of_mem _)
      · rcases List.mem_cons.mp h with rfl | h
        · exact .inr List.mem_cons_self
        · exact (ih h).imp_right (List.mem_cons_of_mem _)

/-- A map of pairs holds no others. -/
theorem mem_of_mem_ofList {pairs : List (String × α)} {e : String × α} :
    e ∈ ofList pairs → e ∈ pairs := by
  have run (es : Entries α) (h : e ∈ pairs.foldl (fun es p => es.insert p.1 p.2) es) :
      e ∈ pairs ∨ e ∈ es := by
    induction pairs generalizing es with
    | nil => exact .inr h
    | cons p pairs ih =>
      rcases ih _ h with h | h
      · exact .inl (List.mem_cons_of_mem _ h)
      · rcases mem_of_mem_insert h with rfl | h
        · exact .inl List.mem_cons_self
        · exact .inr h
  exact fun h => (run [] h).resolve_right List.not_mem_nil

/-- Pairs whose values are told by their keys are the entries of their map. -/
theorem mem_ofList_of_keys {pairs : List (String × α)} (value : String → α)
    (told : ∀ e ∈ pairs, e.2 = value e.1) {e : String × α} : e ∈ ofList pairs ↔ e ∈ pairs := by
  refine ⟨mem_of_mem_ofList, fun he => ?_⟩
  obtain ⟨e', he', hkey⟩ := List.mem_map.mp (mem_keys_ofList.mpr (List.mem_map_of_mem (f := Prod.fst) he))
  have same : e' = e := Prod.ext hkey (by rw [told e he, told e' (mem_of_mem_ofList he'), hkey])
  exact same ▸ he'

theorem mem_of_get? {es : Entries α} {key : String} {value : α}
    (h : es.get? key = some value) : (key, value) ∈ es := by
  obtain ⟨before, after, rfl, -⟩ := List.lookup_eq_some_iff.mp h
  simp

theorem insert_ne_nil (key : String) (value : α) (es : Entries α) : es.insert key value ≠ [] := by
  cases es with
  | nil => simp [insert]
  | cons e es =>
    unfold insert
    split
    · simp
    · split <;> simp

/-- Of two values put at one key the later one stays. -/
theorem insert_insert (key : String) (v w : α) (es : Entries α) :
    (es.insert key v).insert key w = es.insert key w := by
  induction es with
  | nil => simp [insert]
  | cons e es ih =>
    obtain ⟨k, x⟩ := e
    simp only [insert]
    split
    · simp [insert]
    · split
      · simp [insert]
      · simp [insert, *]

/-- Values put at two keys, in either order. -/
theorem insert_comm {k l : String} (h : k ≠ l) (v w : α) (es : Entries α) :
    (es.insert k v).insert l w = (es.insert l w).insert k v := by
  have hnot : k < l → ¬l < k := lt_asymm
  have htotal : ¬k < l → l < k := fun hlt => lt_of_le_of_ne (le_of_not_gt hlt) h.symm
  induction es with
  | nil =>
    simp only [insert, h, h.symm, if_false]
    by_cases hlt : k < l
    · rw [if_neg (hnot hlt), if_pos hlt]
    · rw [if_pos (htotal hlt), if_neg hlt]
  | cons e es ih =>
    obtain ⟨m, x⟩ := e
    grind [insert]

section insert
variable {key k : String} {value : α} {es : Entries α}

theorem get?_cons (e : String × α) (es : Entries α) (k : String) :
    get? (e :: es) k = if k = e.1 then some e.2 else es.get? k := by
  rw [get?, List.lookup_cons]
  by_cases h : k = e.1
  · simp [h]
  · rw [beq_false_of_ne h, if_neg h]
    rfl

theorem get?_insert : (es.insert key value).get? k = if k = key then some value else es.get? k := by
  induction es with
  | nil => exact get?_cons (key, value) [] k
  | cons e es ih =>
    obtain ⟨k', v⟩ := e
    unfold insert
    by_cases hlt : key < k'
    · rw [if_pos hlt, get?_cons]
    by_cases heq : key = k'
    · subst heq
      rw [if_neg hlt, if_pos rfl, get?_cons, get?_cons]
      split <;> rfl
    · rw [if_neg hlt, if_neg heq, get?_cons, ih, get?_cons]
      by_cases hk : k = k'
      · have hkey : k ≠ key := fun h => heq (h.symm.trans hk)
        simp [hk, hk ▸ hkey]
      · simp [hk]

theorem Sorted.insert (h : es.Sorted) : (Entries.insert key value es).Sorted := by
  induction es with
  | nil => exact List.pairwise_singleton _ _
  | cons e es ih =>
    obtain ⟨k', v⟩ := e
    obtain ⟨hfirst, hrest⟩ := List.pairwise_cons.mp h
    unfold Entries.insert
    by_cases hlt : key < k'
    · rw [if_pos hlt]
      refine List.pairwise_cons.mpr ⟨fun e he => ?_, h⟩
      rcases List.mem_cons.mp he with rfl | he
      · exact hlt
      · exact hlt.trans (hfirst e he)
    by_cases heq : key = k'
    · subst heq
      rw [if_neg hlt, if_pos rfl]
      exact List.pairwise_cons.mpr ⟨hfirst, hrest⟩
    · rw [if_neg hlt, if_neg heq]
      have hgt : k' < key := lt_of_le_of_ne (le_of_not_gt hlt) (Ne.symm heq)
      refine List.pairwise_cons.mpr ⟨fun e he => ?_, ih hrest⟩
      have hkeys : e.1 ∈ (Entries.insert key value es).keys := List.mem_map_of_mem he
      rcases mem_keys_insert.mp hkeys with hkey | hkey
      · exact hkey ▸ hgt
      · obtain ⟨e', he', hkey⟩ := List.mem_map.mp hkey
        exact hkey ▸ hfirst e' he'

theorem perm_insert (h : key ∉ es.keys) : (es.insert key value).Perm ((key, value) :: es) := by
  induction es with
  | nil => exact .refl _
  | cons e es ih =>
    obtain ⟨k', v⟩ := e
    rw [keys, List.map_cons, List.mem_cons, not_or] at h
    unfold insert
    by_cases hlt : key < k'
    · rw [if_pos hlt]
    · rw [if_neg hlt, if_neg h.1]
      exact ((ih h.2).cons _).trans (.swap _ _ _)

end insert

theorem Sorted.nodup {es : Entries α} (h : es.Sorted) : es.keys.Nodup :=
  List.pairwise_map.mpr (h.imp fun hlt => hlt.ne)

/-- What a map holds under one of its keys. -/
theorem get?_of_mem {es : Entries α} (nodup : es.keys.Nodup) {e : String × α} (he : e ∈ es) :
    es.get? e.1 = some e.2 := by
  induction es with
  | nil => cases he
  | cons first es ih =>
    rw [keys, List.map_cons, List.nodup_cons] at nodup
    rw [get?_cons]
    rcases List.mem_cons.mp he with rfl | he
    · rw [if_pos rfl]
    · have hne : e.1 ≠ first.1 := fun h => nodup.1 (h ▸ List.mem_map_of_mem he)
      rw [if_neg hne, ih nodup.2 he]

theorem get?_eq_none {es : Entries α} {key : String} (h : key ∉ es.keys) : es.get? key = none := by
  rw [get?, List.lookup_eq_none_iff]
  intro e he
  simpa using fun heq : key = e.1 => h (heq ▸ List.mem_map_of_mem he)

theorem sorted_ofList (pairs : List (String × α)) : (ofList pairs).Sorted := by
  have run (es : Entries α) (h : es.Sorted) :
      Sorted (pairs.foldl (fun es p => es.insert p.1 p.2) es) := by
    induction pairs generalizing es with
    | nil => exact h
    | cons p pairs ih => exact ih _ h.insert
  exact run [] List.Pairwise.nil

theorem perm_ofList {pairs : List (String × α)} (nodup : (pairs.map Prod.fst).Nodup) :
    (ofList pairs).Perm pairs := by
  have run (es : Entries α) (h : (pairs.map Prod.fst ++ es.keys).Nodup) :
      (pairs.foldl (fun es p => es.insert p.1 p.2) es).Perm (pairs ++ es) := by
    induction pairs generalizing es with
    | nil => exact .refl _
    | cons p pairs ih =>
      have hperm : (es.insert p.1 p.2).Perm (p :: es) := by
        apply perm_insert
        rw [List.map_cons, List.cons_append, List.nodup_cons, List.mem_append, not_or] at h
        exact h.1.2
      rw [List.map_cons, List.nodup_cons] at nodup
      refine (ih nodup.2 (es.insert p.1 p.2) ?_).trans ?_
      · have hkeys : (es.insert p.1 p.2).keys.Perm (p.1 :: es.keys) := hperm.map Prod.fst
        exact ((hkeys.append_left _).trans List.perm_middle).nodup_iff.mpr h
      · exact (hperm.append_left pairs).trans List.perm_middle
  have hrun := run [] (by simpa [keys] using nodup)
  rwa [List.append_nil] at hrun

/-- A map of entries with different keys holds each of them. -/
theorem get?_ofList {pairs : List (String × α)} (nodup : (pairs.map Prod.fst).Nodup) {e : String × α}
    (he : e ∈ pairs) : (ofList pairs).get? e.1 = some e.2 :=
  get?_of_mem (sorted_ofList pairs).nodup ((perm_ofList nodup).mem_iff.mpr he)

/-- A map in order is the map of its entries, in whatever order they are given. -/
theorem ofList_of_perm {pairs : List (String × α)} {es : Entries α} (h : pairs.Perm es)
    (sorted : es.Sorted) : ofList pairs = es := by
  have nodup : (pairs.map Prod.fst).Nodup := (h.map Prod.fst).nodup_iff.mpr sorted.nodup
  refine ((perm_ofList nodup).trans h).eq_of_pairwise ?_ (sorted_ofList pairs) sorted
  exact fun a b _ _ hab hba => absurd hba hab.asymm

theorem ofList_of_sorted {es : Entries α} (sorted : es.Sorted) : ofList es = es :=
  ofList_of_perm (.refl es) sorted

/-- Maps in order that hold the same are the same. -/
theorem Sorted.ext {es fs : Entries α} (hes : es.Sorted) (hfs : fs.Sorted)
    (h : ∀ key, es.get? key = fs.get? key) : es = fs := by
  have sub {es fs : Entries α} (hes : es.Sorted) (h : ∀ key, es.get? key = fs.get? key) :
      ∀ e ∈ es, e ∈ fs := fun e he => mem_of_get? ((h e.1).symm.trans (get?_of_mem hes.nodup he))
  have nodup {es : Entries α} (hes : es.Sorted) : es.Nodup := (List.Pairwise.of_map _ (by simp) hes.nodup)
  have hperm : es.Perm fs := (List.perm_ext_iff_of_nodup (nodup hes) (nodup hfs)).mpr fun e =>
    ⟨sub hes h e, sub hfs (fun key => (h key).symm) e⟩
  rw [← ofList_of_perm hperm hfs, ofList_of_sorted hes]

theorem keys_of_forall₂ {β : Type} {es : Entries α} {fs : Entries β}
    (h : List.Forall₂ (fun e f => e.1 = f.1) es fs) : es.keys = fs.keys := by
  induction h with
  | nil => rfl
  | cons h _ ih => exact congrArg₂ _ h ih

/-- Order is a matter of the keys. -/
theorem Sorted.of_keys {β : Type} {es : Entries α} {fs : Entries β} (h : es.Sorted)
    (keys : es.keys = fs.keys) : fs.Sorted := by
  have hkeys : fs.keys.Pairwise (· < ·) := keys ▸ List.pairwise_map.mpr h
  exact List.pairwise_map.mp hkeys

/-! Values by their keys -/

section values
variable {β : Type} (f : String → α → β)

theorem map_insert (key : String) (value : α) (es : Entries α) :
    (es.insert key value).map (fun e => (e.1, f e.1 e.2)) =
      Entries.insert key (f key value) (es.map fun e => (e.1, f e.1 e.2)) := by
  induction es with
  | nil => rfl
  | cons e es ih =>
    rw [insert, List.map_cons, insert]
    split
    · rfl
    · split
      · rfl
      · rw [List.map_cons, ih]

/-- What is made of the values of a map by their keys may be made of its pairs before. -/
theorem map_ofList (pairs : List (String × α)) :
    (ofList pairs).map (fun e => (e.1, f e.1 e.2)) = ofList (pairs.map fun e => (e.1, f e.1 e.2)) := by
  have run (es : Entries α) :
      (pairs.foldl (fun es p => es.insert p.1 p.2) es).map (fun e => (e.1, f e.1 e.2)) =
        (pairs.map fun e => (e.1, f e.1 e.2)).foldl (fun (es : Entries β) p => es.insert p.1 p.2)
          (es.map fun e => (e.1, f e.1 e.2)) := by
    induction pairs generalizing es with
    | nil => rfl
    | cons p pairs ih => rw [List.foldl_cons, List.map_cons, List.foldl_cons, ih, map_insert]
  exact run []

end values

/-! Merging -/

section merging
variable (put : Option α → α → α)

/-- The entries of a map put into another one after the other; `put` says what comes to stand at a key,
from what stood there and from the entry. -/
def mergeBy (es : Entries α) (incoming : List (String × α)) : Entries α :=
  incoming.foldl (fun es e => es.insert e.1 (put (es.get? e.1) e.2)) es

variable {put} {es incoming : Entries α}

theorem Sorted.mergeBy (h : es.Sorted) : (Entries.mergeBy put es incoming).Sorted := by
  induction incoming generalizing es with
  | nil => exact h
  | cons e incoming ih => exact ih h.insert

theorem get?_mergeBy (nodup : incoming.keys.Nodup) (key : String) :
    (mergeBy put es incoming).get? key =
      ((incoming.get? key).map (put (es.get? key))).or (es.get? key) := by
  induction incoming generalizing es with
  | nil => rfl
  | cons e incoming ih =>
    rw [keys, List.map_cons, List.nodup_cons] at nodup
    rw [mergeBy, List.foldl_cons, ← mergeBy, ih nodup.2, get?_insert, get?_cons]
    by_cases hkey : key = e.1
    · subst hkey
      rw [if_pos rfl, if_pos rfl, get?_eq_none nodup.1]
      rfl
    · rw [if_neg hkey, if_neg hkey]

/-- A map in order is what its entries make of nothing, if they are put there as they are. -/
theorem mergeBy_nil (alone : ∀ v, put none v = v) (sorted : incoming.Sorted) :
    mergeBy put [] incoming = incoming := by
  have empty : Sorted ([] : Entries α) := List.Pairwise.nil
  refine empty.mergeBy.ext sorted fun key => ?_
  rw [get?_mergeBy sorted.nodup]
  change ((incoming.get? key).map (put none)).or none = _
  rw [Option.or_none, funext alone, Option.map_id']

/-- An entry is put in before or after entries at other keys. -/
theorem mergeBy_cons_comm {e : String × α} (free : e.1 ∉ incoming.keys) :
    mergeBy put es (e :: incoming) = mergeBy put (mergeBy put es incoming) [e] := by
  induction incoming generalizing es with
  | nil => rfl
  | cons f incoming ih =>
    rw [keys, List.map_cons, List.mem_cons, not_or] at free
    have swap : mergeBy put es [e, f] = mergeBy put es [f, e] := by
      simp only [mergeBy, List.foldl_cons, List.foldl_nil, get?_insert]
      rw [if_neg free.1, if_neg (Ne.symm free.1), insert_comm free.1]
    calc
      mergeBy put es (e :: f :: incoming) = mergeBy put (mergeBy put es [e, f]) incoming := rfl
      _ = mergeBy put (mergeBy put es [f]) (e :: incoming) := by rw [swap]; rfl
      _ = mergeBy put (mergeBy put es (f :: incoming)) [e] := ih free.2

/-- To put the same entries in again changes nothing, if none of them does so at its key. -/
theorem mergeBy_mergeBy (nodup : incoming.keys.Nodup)
    (again : ∀ e ∈ incoming, ∀ current, put (some (put current e.2)) e.2 = put current e.2) :
    mergeBy put (mergeBy put es incoming) incoming = mergeBy put es incoming := by
  induction incoming generalizing es with
  | nil => rfl
  | cons e incoming ih =>
    rw [keys, List.map_cons, List.nodup_cons] at nodup
    rw [List.forall_mem_cons] at again
    have twice : mergeBy put (mergeBy put es [e]) [e] = mergeBy put es [e] := by
      simp only [mergeBy, List.foldl_cons, List.foldl_nil, get?_insert, if_true, insert_insert, again.1]
    calc
      mergeBy put (mergeBy put es (e :: incoming)) (e :: incoming)
          = mergeBy put (mergeBy put (mergeBy put (mergeBy put es [e]) incoming) [e]) incoming := rfl
      _ = mergeBy put (mergeBy put (mergeBy put (mergeBy put es [e]) [e]) incoming) incoming := by
          rw [← mergeBy_cons_comm nodup.1]
          rfl
      _ = mergeBy put es (e :: incoming) := by
          rw [twice, ih nodup.2 again.2]
          rfl

end merging

end RecordGraph.Entries
