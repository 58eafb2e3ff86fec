import Mathlib.Data.List.Nodup
import RecordGraph.Proofs.Entries
import RecordGraph.Proofs.Text.Pieces
import RecordGraph.Query.Querystring.Writer

/-!
Maps of maps as parameters. Every leaf of a map is written under the path that leads to it, and the
leaves merged one after the other make the map again.
-/
namespace RecordGraph

/-! Leaves -/

/-- A scalar that is read back from its text. -/
def Scalar.Settled (v : Value) : Prop := ∃ s, write? v = some s ∧ s ≠ "" ∧ read true s = v

namespace Value

/-- What the values of one parameter stand for: a settled scalar, or a list of at least two. -/
inductive IsLeaf : Value → Prop where
  | scalar {v : Value} (h : Scalar.Settled v) : IsLeaf v
  | list {vs : List Value} (two : 2 ≤ vs.length) (h : ∀ v ∈ vs, Scalar.Settled v) : IsLeaf (.arr vs)

/-- The texts of a scalar or of the items of a list. -/
def texts : Value → List String
  | .arr vs => vs.filterMap Scalar.write?
  | v => (Scalar.write? v).toList

theorem texts_scalar {v : Value} {s : String} (h : Scalar.write? v = some s) : v.texts = [s] := by
  cases v with
  | arr | obj => cases h
  | null | bool | num | str => rw [texts, h, Option.toList_some]; simp

theorem texts_items {vs : List Value} (h : ∀ v ∈ vs, Scalar.Settled v) :
    (∀ s ∈ (arr vs).texts, s ≠ "") ∧ (arr vs).texts.map (Scalar.read true) = vs ∧
      ∀ key, Query.writeValues key (.arr vs) = some ((arr vs).texts.map (key, ·)) := by
  simp only [texts, Query.writeValues]
  induction vs with
  | nil => simp
  | cons v vs ih =>
    rw [List.forall_mem_cons] at h
    obtain ⟨⟨s, hwrite, hs, hread⟩, h⟩ := h
    obtain ⟨ihsome, ihread, ihwrite⟩ := ih h
    rw [List.filterMap_cons_some hwrite]
    refine ⟨List.forall_mem_cons.mpr ⟨hs, ihsome⟩, ?_, fun key => ?_⟩
    · rw [List.map_cons, hread, ihread]
    · simp [hwrite, ihwrite]

/-- A leaf is written as its texts and read back from them. -/
theorem IsLeaf.read {v : Value} (h : v.IsLeaf) : v.texts ≠ [] ∧ (∀ s ∈ v.texts, s ≠ "") ∧
    Scalar.readAll true v.texts = v ∧ ∀ key, Query.writeValues key v = some (v.texts.map (key, ·)) := by
  cases h with
  | scalar h =>
    obtain ⟨s, hwrite, hs, hread⟩ := h
    rw [texts_scalar hwrite]
    refine ⟨by simp, by simpa using hs, hread, fun key => ?_⟩
    cases v with
    | arr | obj => cases hwrite
    | null | bool | num | str => simp [Query.writeValues, hwrite]
  | @list vs two h =>
    obtain ⟨hsome, hread, hwrite⟩ := texts_items h
    refine ⟨?_, hsome, ?_, hwrite⟩
    · rw [← List.length_pos_iff, ← List.length_map (f := Scalar.read true), hread]
      omega
    · generalize (arr vs).texts = ss at hread
      subst hread
      match ss, two with
      | s :: t :: ss, _ => rfl

theorem not_isLeaf_obj (es : Entries Value) : ¬(obj es).IsLeaf := by
  rintro ⟨⟨s, ⟨⟩, -⟩⟩

/-! Maps -/

/-- A leaf, or a map with entries under names that may stand in a key. -/
inductive IsBranch : Value → Prop where
  | leaf {v : Value} (h : v.IsLeaf) : IsBranch v
  | map {es : Entries Value} (filled : es ≠ []) (sorted : es.Sorted)
    (names : ∀ e ∈ es, Query.isKeySafe e.1) (h : ∀ e ∈ es, IsBranch e.2) : IsBranch (.obj es)

mutual
/-- The leaves of a value, each under the names that lead to it. -/
def leaves : Value → List (List String × Value)
  | .obj es => leavesAll es
  | v => [([], v)]

def leavesAll : List (String × Value) → List (List String × Value)
  | [] => []
  | (name, v) :: es => (leaves v).map (fun (path, w) => (name :: path, w)) ++ leavesAll es
end

theorem leaves_leaf {v : Value} (h : v.IsLeaf) : v.leaves = [([], v)] := by
  cases v with
  | obj es => exact absurd h (not_isLeaf_obj es)
  | _ => rfl

/-- Induction over a branch, with the leaves of a map taken entry by entry. -/
theorem leavesAll_eq (es : Entries Value) :
    leavesAll es = es.flatMap fun e => e.2.leaves.map fun l => (e.1 :: l.1, l.2) := by
  induction es with
  | nil => rfl
  | cons e es ih => rw [leavesAll, ih, List.flatMap_cons]

theorem leaves_obj (es : Entries Value) :
    (obj es).leaves = es.flatMap fun e => e.2.leaves.map fun l => (e.1 :: l.1, l.2) := by
  rw [leaves, leavesAll_eq]

/-- A leaf of a branch, and the path to it. -/
theorem mem_leaves {v : Value} (h : v.IsBranch) {l : List String × Value} (hl : l ∈ v.leaves) :
    (∀ name ∈ l.1, Query.isKeySafe name) ∧ l.2.IsLeaf := by
  induction h generalizing l with
  | leaf h =>
    rw [leaves_leaf h, List.mem_singleton] at hl
    subst hl
    exact ⟨by simp, h⟩
  | map filled sorted names h ih =>
    simp only [leaves_obj, List.mem_flatMap, List.mem_map] at hl
    obtain ⟨e, he, l, hl, rfl⟩ := hl
    obtain ⟨hpath, hleaf⟩ := ih e he hl
    exact ⟨List.forall_mem_cons.mpr ⟨names e he, hpath⟩, hleaf⟩

/-- The leaves of a map have paths of at least one name. -/
theorem ne_nil_of_mem_leaves {es : Entries Value} {l : List String × Value}
    (hl : l ∈ (obj es).leaves) : l.1 ≠ [] := by
  simp only [leaves_obj, List.mem_flatMap, List.mem_map] at hl
  obtain ⟨e, -, l, -, rfl⟩ := hl
  simp

theorem IsBranch.leaves_ne_nil {v : Value} (h : v.IsBranch) : v.leaves ≠ [] := by
  induction h with
  | leaf h => simp [leaves_leaf h]
  | @map es filled sorted names h ih =>
    obtain ⟨e, he⟩ := List.exists_mem_of_ne_nil es filled
    rw [leaves_obj]
    simp only [ne_eq, List.flatMap_eq_nil_iff, List.map_eq_nil_iff]
    exact fun hnil => ih e he (hnil e he)

/-- No two leaves have one path. -/
theorem IsBranch.nodup_paths {v : Value} (h : v.IsBranch) : (v.leaves.map Prod.fst).Nodup := by
  induction h with
  | leaf h => simp [leaves_leaf h]
  | @map es filled sorted names h ih =>
    rw [leaves_obj, List.map_flatMap]
    refine List.nodup_flatMap.mpr ⟨fun e he => ?_, ?_⟩
    · rw [List.map_map]
      have := ih e he
      rw [List.Nodup, List.pairwise_map] at this ⊢
      refine this.imp fun hne heq => hne ?_
      simpa using heq
    · refine sorted.imp fun hlt => ?_
      rintro path hpath hpath'
      simp only [List.map_map, List.mem_map, Function.comp_apply] at hpath hpath'
      obtain ⟨l, -, rfl⟩ := hpath
      obtain ⟨l', -, heq⟩ := hpath'
      exact hlt.ne (List.cons.inj heq).1.symm

end Value

/-! Writing -/

namespace Query
variable {sep : String}

/-- The pairs of leaves: each text of a leaf under the key that its path makes. -/
def leafPairs (stem sep : String) (ls : List (List String × Value)) : List (String × String) :=
  ls.flatMap fun l => l.2.texts.map (Text.join sep (stem :: l.1), ·)

theorem join_below (stem name : String) (path : List String) :
    Text.join sep ((stem ++ sep ++ name) :: path) = Text.join sep (stem :: name :: path) := by
  cases path with
  | nil => rw [Text.join_cons_cons]; simp [Text.join]
  | cons next path => simp [Text.join_cons_cons, String.append_assoc]

theorem leafPairs_below (stem name : String) (ls : List (List String × Value)) :
    leafPairs (stem ++ sep ++ name) sep ls =
      leafPairs stem sep (ls.map fun l => (name :: l.1, l.2)) := by
  simp only [leafPairs, List.flatMap_map, join_below]

/-- A branch is written leaf by leaf. -/
theorem writeEntry_branch {v : Value} (h : v.IsBranch) (key : String) :
    writeEntry key sep v = some (leafPairs key sep v.leaves) := by
  induction h generalizing key with
  | @leaf v h =>
    have hwrite := h.read.2.2.2 key
    rw [Value.leaves_leaf h, leafPairs, List.flatMap_singleton]
    cases v with
    | obj es => exact absurd h (Value.not_isLeaf_obj es)
    | _ =>
      rw [writeEntry, hwrite]
      · rfl
      all_goals simp
  | @map es filled sorted names h ih =>
    have hentries : writeEntries key sep es = some (leafPairs key sep (Value.obj es).leaves) := by
      clear filled sorted
      rw [Value.leaves_obj]
      induction es with
      | nil => rfl
      | cons e es ihes =>
        rw [List.forall_mem_cons] at names h
        have hrest := ihes names.2 h.2 fun e he => ih e (List.mem_cons_of_mem _ he)
        have hfirst := ih e List.mem_cons_self (key ++ sep ++ e.1)
        rw [writeEntries, if_pos names.1, hfirst, hrest, leafPairs_below, List.flatMap_cons, leafPairs,
          leafPairs, leafPairs, List.flatMap_append]
        rfl
    rw [writeEntry, hentries]
    exact filled

theorem writeMap_branch {es : Entries Value} (h : (Value.obj es).IsBranch) (stem : String) :
    writeMap stem sep es = some (leafPairs stem sep (Value.obj es).leaves) := by
  have filled : es ≠ [] := by
    rcases h with h | h
    · exact absurd h (Value.not_isLeaf_obj es)
    · assumption
  have hentry : writeEntry stem sep (.obj es) = some (leafPairs stem sep (Value.obj es).leaves) :=
    writeEntry_branch h stem
  rw [writeEntry] at hentry
  · rw [writeMap, if_neg (by simpa using filled), hentry]
  · exact filled

end Query

/-! Merging -/

namespace Value

/-- The map that holds one leaf of a map. -/
def leafMap (l : List String × Value) : Entries Value :=
  match l.1 with
  | [] => []
  | name :: path => [(name, Param.nestAlong l.2 path)]

theorem onto_null (v : Value) : null.onto v = v := by cases v <;> rfl

/-- Merging a map with one entry puts it in place of what stood at its key. -/
theorem onto_node (current : Value) (name : String) (v : Value) :
    current.onto (.node name v) =
      .obj ((current.obj?.getD []).insert name ((((current.obj?.getD []).get? name).getD null).onto v)) := by
  cases current with
  | obj es => rfl
  | null | bool | num | str | arr => simp [node, onto, obj?, Entries.get?, Entries.insert, onto_null]

/-- Leaves under one name are merged into what stands at the name. -/
theorem mergeLeaves_below {name : String} {ls : List (List String × Value)} (hls : ls ≠ [])
    (es : Entries Value) :
    (ls.map fun l => (name :: l.1, l.2)).foldl (fun es l => mergeEntries es (leafMap l)) es =
      es.insert name
        (ls.foldl (fun v l => v.onto (Param.nestAlong l.2 l.1)) ((es.get? name).getD null)) := by
  induction ls generalizing es with
  | nil => exact absurd rfl hls
  | cons l ls ih =>
    rw [List.map_cons, List.foldl_cons, List.foldl_cons]
    by_cases hrest : ls = []
    · subst hrest
      rfl
    · rw [ih hrest, leafMap, mergeEntries, mergeEntries, Entries.insert_insert, Entries.get?_insert,
        if_pos rfl]
      rfl

theorem foldl_onto {ls : List (List String × Value)} (hls : ls ≠ []) (paths : ∀ l ∈ ls, l.1 ≠ [])
    (v : Value) : ls.foldl (fun v l => v.onto (Param.nestAlong l.2 l.1)) v =
      .obj (ls.foldl (fun es l => mergeEntries es (leafMap l)) (v.obj?.getD [])) := by
  induction ls generalizing v with
  | nil => exact absurd rfl hls
  | cons l ls ih =>
    rw [List.forall_mem_cons] at paths
    obtain ⟨path, w⟩ := l
    obtain ⟨name, path, rfl⟩ := List.exists_cons_of_ne_nil paths.1
    rw [List.foldl_cons, List.foldl_cons, Param.nestAlong, onto_node]
    by_cases hrest : ls = []
    · subst hrest
      rfl
    · rw [ih hrest paths.2]
      rfl

/-- Leaves of an entry at a free name put the value of the entry there. -/
theorem mergeLeaves_entry {name : String} {v : Value} (h : v.IsBranch)
    (ih : v.leaves.foldl (fun v l => v.onto (Param.nestAlong l.2 l.1)) null = v) {es : Entries Value}
    (free : es.get? name = none) :
    (v.leaves.map fun l => (name :: l.1, l.2)).foldl (fun es l => mergeEntries es (leafMap l)) es =
      es.insert name v := by
  rw [mergeLeaves_below h.leaves_ne_nil, free, Option.getD_none, ih]

/-- The leaves of a map, merged one after the other, are the map. -/
theorem mergeLeaves_obj {es : Entries Value} (sorted : es.Sorted) (h : ∀ e ∈ es, e.2.IsBranch)
    (ih : ∀ e ∈ es, e.2.leaves.foldl (fun v l => v.onto (Param.nestAlong l.2 l.1)) null = e.2) :
    (obj es).leaves.foldl (fun es l => mergeEntries es (leafMap l)) [] = es := by
  have run {fs : Entries Value} (sub : fs.Sublist es) (acc : Entries Value)
      (free : ∀ e ∈ fs, acc.get? e.1 = none) :
      (obj fs).leaves.foldl (fun es l => mergeEntries es (leafMap l)) acc =
        fs.foldl (fun es e => es.insert e.1 e.2) acc := by
    induction fs generalizing acc with
    | nil => rfl
    | cons e fs ihfs =>
      have hmem : e ∈ es := sub.subset List.mem_cons_self
      have hsorted := List.pairwise_cons.mp (sorted.sublist sub)
      rw [List.forall_mem_cons] at free
      rw [leaves_obj, List.flatMap_cons, List.foldl_append,
        mergeLeaves_entry (h e hmem) (ih e hmem) free.1, ← leaves_obj, List.foldl_cons]
      refine ihfs ((List.sublist_cons_self _ _).trans sub) _ fun e' he' => ?_
      rw [Entries.get?_insert, if_neg (hsorted.1 e' he').ne', free.2 e' he']
  rw [run (List.Sublist.refl es) [] (fun _ _ => rfl)]
  exact Entries.ofList_of_sorted sorted

/-- The leaves of a branch make the branch again. -/
theorem IsBranch.merge_leaves {v : Value} (h : v.IsBranch) :
    v.leaves.foldl (fun v l => v.onto (Param.nestAlong l.2 l.1)) null = v := by
  induction h with
  | @leaf v h => rw [leaves_leaf h, List.foldl_cons, List.foldl_nil, Param.nestAlong, onto_null]
  | @map es filled sorted names h ih =>
    rw [foldl_onto (IsBranch.map filled sorted names h).leaves_ne_nil fun l => ne_nil_of_mem_leaves]
    exact congrArg _ (mergeLeaves_obj sorted h ih)

theorem mergeEntries_nil_leafMap (l : List String × Value) : mergeEntries [] (leafMap l) = leafMap l := by
  obtain ⟨path, v⟩ := l
  cases path with
  | nil => rfl
  | cons name path => exact congrArg (fun v => [(name, v)]) (onto_null _)

/-- The leaves of a map, each given as a map of its own, are merged into the map. -/
theorem IsBranch.mergeMap_leaves {es : Entries Value} (h : (obj es).IsBranch) :
    (obj es).leaves.foldl (fun es l => mergeMap true es (some (leafMap l))) none = some es := by
  have hmerge : (obj es).leaves.foldl (fun es l => mergeEntries es (leafMap l)) [] = es := by
    rcases h with h | ⟨filled, sorted, names, h⟩
    · exact absurd h (not_isLeaf_obj es)
    · exact mergeLeaves_obj sorted h fun e he => (h e he).merge_leaves
  have rest (ls : List (List String × Value)) (acc : Entries Value) :
      ls.foldl (fun es l => mergeMap true es (some (leafMap l))) (some acc) =
        some (ls.foldl (fun es l => mergeEntries es (leafMap l)) acc) := by
    induction ls generalizing acc with
    | nil => rfl
    | cons l ls ih => exact ih _
  obtain ⟨l, ls, hls⟩ := List.exists_cons_of_ne_nil h.leaves_ne_nil
  rw [hls, List.foldl_cons, mergeEntries_nil_leafMap] at hmerge
  rw [hls, List.foldl_cons, mergeMap, rest, hmerge]

end Value
end RecordGraph
