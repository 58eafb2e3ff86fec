import RecordGraph.Proofs.Entries
import RecordGraph.Proofs.Value.Reader

/-!
Values with their maps in key order. Putting maps in order leaves such values as they are, and rereading
their numbers leaves them in order. Of a value only its numbers can be read as others than they are.
-/
namespace RecordGraph.Value

theorem canonicalItems_eq (xs : List Value) : canonicalItems xs = xs.map canonical := by
  induction xs with
  | nil => rfl
  | cons x xs ih => rw [canonicalItems, ih, List.map_cons]

theorem canonicalEntries_eq (es : List (String × Value)) :
    canonicalEntries es = es.map fun e => (e.1, e.2.canonical) := by
  induction es with
  | nil => rfl
  | cons e es ih => rw [canonicalEntries, ih, List.map_cons]

theorem canonical_arr_iff {xs : List Value} : (Value.arr xs).Canonical ↔ ∀ x ∈ xs, x.Canonical := by
  rw [Canonical]
  induction xs with
  | nil => simp [CanonicalItems]
  | cons x xs ih => rw [CanonicalItems, ih, List.forall_mem_cons]

theorem canonical_obj_iff {es : List (String × Value)} :
    (Value.obj es).Canonical ↔ Entries.Sorted es ∧ ∀ e ∈ es, e.2.Canonical := by
  have hentries : CanonicalEntries es ↔ ∀ e ∈ es, e.2.Canonical := by
    induction es with
    | nil => simp [CanonicalEntries]
    | cons e es ih => rw [CanonicalEntries, ih, List.forall_mem_cons]
  rw [Canonical, hentries]

theorem canonical_node_iff {key : String} {v : Value} : (node key v).Canonical ↔ v.Canonical := by
  rw [node, canonical_obj_iff, List.forall_mem_singleton]
  exact and_iff_right (List.pairwise_singleton _ _)

theorem canonical_eq_self {v : Value} (h : v.Canonical) : v.canonical = v := by
  induction v with
  | null | bool | num | str => rfl
  | arr xs ih =>
    rw [canonical_arr_iff] at h
    rw [canonical, canonicalItems_eq, List.map_congr_left fun x hx => ih x hx (h x hx), List.map_id']
  | obj es ih =>
    rw [canonical_obj_iff] at h
    have hvalues : canonicalEntries es = es := by
      rw [canonicalEntries_eq, List.map_congr_left fun e he => by rw [ih e he (h.2 e he)], List.map_id']
    rw [canonical, hvalues, Entries.ofList_of_sorted h.1]

theorem rereadItems_eq_some {xs ys : List Value} :
    rereadItems xs = some ys ↔ List.Forall₂ (fun x y => x.reread = some y) xs ys := by
  induction xs generalizing ys with
  | nil => simp [rereadItems, eq_comm]
  | cons x xs ih =>
    rw [rereadItems, Option.bind_eq_some_iff, List.forall₂_cons_left_iff]
    simp only [Option.map_eq_some_iff, ih]
    constructor
    · rintro ⟨y, hy, ys, hys, rfl⟩
      exact ⟨y, ys, hy, hys, rfl⟩
    · rintro ⟨y, ys, hy, hys, rfl⟩
      exact ⟨y, hy, ys, hys, rfl⟩

theorem rereadEntries_eq_some {es fs : List (String × Value)} :
    rereadEntries es = some fs ↔
      List.Forall₂ (fun e f => e.1 = f.1 ∧ e.2.reread = some f.2) es fs := by
  induction es generalizing fs with
  | nil => simp [rereadEntries, eq_comm]
  | cons e es ih =>
    rw [rereadEntries, Option.bind_eq_some_iff, List.forall₂_cons_left_iff]
    simp only [Option.map_eq_some_iff, ih]
    constructor
    · rintro ⟨y, hy, fs, hfs, rfl⟩
      exact ⟨(e.1, y), fs, ⟨rfl, hy⟩, hfs, rfl⟩
    · rintro ⟨⟨k, y⟩, fs, ⟨rfl, hy⟩, hfs, rfl⟩
      exact ⟨y, hy, fs, hfs, rfl⟩

theorem canonical_of_reread {v w : Value} (h : v.Canonical) (hw : v.reread = some w) :
    w.Canonical := by
  induction v generalizing w with
  | null | bool | str =>
    cases hw
    trivial
  | num n =>
    obtain ⟨m, -, rfl⟩ := Option.map_eq_some_iff.mp hw
    trivial
  | arr xs ih =>
    obtain ⟨ys, hys, rfl⟩ := Option.map_eq_some_iff.mp hw
    rw [canonical_arr_iff] at h ⊢
    intro y hy
    obtain ⟨x, hx, hxy⟩ := (rereadItems_eq_some.mp hys).exists_left hy
    exact ih x hx (h x hx) hxy
  | obj es ih =>
    obtain ⟨fs, hfs, rfl⟩ := Option.map_eq_some_iff.mp hw
    rw [canonical_obj_iff] at h ⊢
    have hreread := rereadEntries_eq_some.mp hfs
    refine ⟨?_, fun f hf => ?_⟩
    · exact h.1.of_keys (Entries.keys_of_forall₂ (hreread.imp fun _ _ h => h.1))
    · obtain ⟨e, he, -, hef⟩ := hreread.exists_left hf
      exact ih e he (h.2 e he) hef

theorem canonical_canonical (v : Value) : v.canonical.Canonical := by
  induction v with
  | null | bool | num | str => trivial
  | arr xs ih =>
    rw [canonical, canonical_arr_iff, canonicalItems_eq, List.forall_mem_map]
    exact ih
  | obj es ih =>
    rw [canonical, canonical_obj_iff, canonicalEntries_eq]
    refine ⟨Entries.sorted_ofList _, fun e he => ?_⟩
    obtain ⟨f, hf, rfl⟩ := List.mem_map.mp (Entries.mem_of_mem_ofList he)
    exact ih f hf

mutual
/-- The numbers in a value. -/
def numbers : Value → List Number
  | .num n => [n]
  | .arr xs => numbersOfItems xs
  | .obj es => numbersOfEntries es
  | _ => []

def numbersOfItems : List Value → List Number
  | [] => []
  | x :: xs => numbers x ++ numbersOfItems xs

def numbersOfEntries : List (String × Value) → List Number
  | [] => []
  | (_, x) :: es => numbers x ++ numbersOfEntries es
end

mutual
/-- A value is reread as itself exactly if each of its numbers is. -/
theorem reread_eq_self : ∀ {v : Value}, v.reread = some v ↔ ∀ n ∈ v.numbers, n.reread = some n
  | .null => by simp [reread, numbers]
  | .bool b => by simp [reread, numbers]
  | .str s => by simp [reread, numbers]
  | .num n => by simp [reread, numbers]
  | .arr xs => by simp [reread, numbers, rereadItems_eq_self]
  | .obj es => by simp [reread, numbers, rereadEntries_eq_self]

theorem rereadItems_eq_self : ∀ {xs : List Value},
    rereadItems xs = some xs ↔ ∀ n ∈ numbersOfItems xs, n.reread = some n
  | [] => by simp [rereadItems, numbersOfItems]
  | x :: xs => by
    rw [rereadItems, numbersOfItems, List.forall_mem_append, ← reread_eq_self, ← rereadItems_eq_self]
    simp [Option.bind_eq_some_iff, and_comm]

theorem rereadEntries_eq_self : ∀ {es : List (String × Value)},
    rereadEntries es = some es ↔ ∀ n ∈ numbersOfEntries es, n.reread = some n
  | [] => by simp [rereadEntries, numbersOfEntries]
  | (k, x) :: es => by
    rw [rereadEntries, numbersOfEntries, List.forall_mem_append, ← reread_eq_self,
      ← rereadEntries_eq_self]
    simp [Option.bind_eq_some_iff, and_comm]
end

end RecordGraph.Value
