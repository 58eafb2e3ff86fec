import Mathlib.Data.List.Induction
import Mathlib.Data.List.Nodup
import RecordGraph.Proofs.Outcome
import RecordGraph.Proofs.Query.Clauses
import RecordGraph.Proofs.Query.Settings

/-!
Pairs gathered by key. What is gathered under a key are the values of the key in their order, so pairs
of distinct keys are gathered into the parameters they were written for, pairs that are reordered without
touching this order into the same parameters, and parameters in any order into the same levels. What a
level says is assembled from its clauses by their tags.
-/
namespace RecordGraph

namespace Gather
variable {κ ν : Type} [DecidableEq κ]

/-- Add a value to those of its key, or a new key at the end. -/
def add (key : κ) (value : ν) : List (κ × List ν) → List (κ × List ν)
  | [] => [(key, [value])]
  | (k, vs) :: rest => if k = key then (k, vs ++ [value]) :: rest else (k, vs) :: add key value rest

/-- The values of each key, in order of first appearance. -/
def gather (pairs : List (κ × ν)) : List (κ × List ν) :=
  pairs.foldl (fun gathered p => add p.1 p.2 gathered) []

def valuesAt (key : κ) (pairs : List (κ × ν)) : List ν := (pairs.filter (·.1 = key)).map Prod.snd

/-- The keys that have values. -/
def keys (pairs : List (κ × ν)) : List κ := (gather pairs).map Prod.fst

theorem map_fst_add (key : κ) (value : ν) (gathered : List (κ × List ν)) :
    (add key value gathered).map Prod.fst =
      if key ∈ gathered.map Prod.fst then gathered.map Prod.fst else gathered.map Prod.fst ++ [key] := by
  induction gathered with
  | nil => rfl
  | cons g gathered ih =>
    rw [add]
    by_cases hkey : g.1 = key
    · simp [hkey]
    · rw [if_neg hkey, List.map_cons, ih, List.map_cons]
      simp only [List.mem_cons, Ne.symm hkey, false_or]
      split <;> rfl

theorem add_map {keys : List κ} (nodup : keys.Nodup) {values : κ → List ν} {key : κ}
    (free : key ∉ keys → values key = []) (value : ν) :
    add key value (keys.map fun k => (k, values k)) =
      (if key ∈ keys then keys else keys ++ [key]).map fun k =>
        (k, values k ++ if k = key then [value] else []) := by
  induction keys with
  | nil => simp [add, free]
  | cons first keys ih =>
    rw [List.nodup_cons] at nodup
    rw [List.map_cons, add]
    by_cases hfirst : first = key
    · subst hfirst
      have hrest : keys.map (fun k => (k, values k)) =
          keys.map fun k => (k, values k ++ if k = first then [value] else []) := by
        refine List.map_congr_left fun k hk => ?_
        rw [if_neg (ne_of_mem_of_not_mem hk nodup.1), List.append_nil]
      rw [if_pos rfl, if_pos List.mem_cons_self, List.map_cons, if_pos rfl, hrest]
    · have hmem : key ∈ first :: keys ↔ key ∈ keys := by simp [Ne.symm hfirst]
      rw [if_neg hfirst, ih nodup.2 fun h => free (hmem.not.mpr h)]
      simp only [hmem]
      split <;> simp [hfirst]

theorem gather_concat (pairs : List (κ × ν)) (p : κ × ν) :
    gather (pairs ++ [p]) = add p.1 p.2 (gather pairs) := by
  rw [gather, List.foldl_append]
  rfl

theorem keys_concat (pairs : List (κ × ν)) (p : κ × ν) :
    keys (pairs ++ [p]) = if p.1 ∈ keys pairs then keys pairs else keys pairs ++ [p.1] := by
  rw [keys, gather_concat, map_fst_add, ← keys]

theorem nodup_keys (pairs : List (κ × ν)) : (keys pairs).Nodup := by
  induction pairs using List.reverseRecOn with
  | nil => exact .nil
  | append_singleton pairs p ih =>
    rw [keys_concat]
    split
    · exact ih
    · rename_i hfree
      exact ih.append (List.nodup_singleton _) (by simpa using hfree)

theorem mem_keys {pairs : List (κ × ν)} {key : κ} : key ∈ keys pairs ↔ key ∈ pairs.map Prod.fst := by
  induction pairs using List.reverseRecOn with
  | nil => exact .rfl
  | append_singleton pairs p ih =>
    have hconcat : key ∈ keys (pairs ++ [p]) ↔ key ∈ keys pairs ∨ key = p.1 := by
      rw [keys_concat]
      split
      · rename_i hmem
        exact ⟨.inl, fun h => h.elim id fun h => h ▸ hmem⟩
      · simp
    rw [hconcat, ih, List.map_append, List.mem_append, List.map_singleton, List.mem_singleton]

theorem valuesAt_concat (key : κ) (pairs : List (κ × ν)) (p : κ × ν) :
    valuesAt key (pairs ++ [p]) = valuesAt key pairs ++ if key = p.1 then [p.2] else [] := by
  rw [valuesAt, valuesAt, List.filter_append, List.map_append]
  by_cases hkey : key = p.1
  · simp [hkey]
  · simp [hkey, Ne.symm hkey]

/-- Each key has its values in their order. -/
theorem gather_eq (pairs : List (κ × ν)) :
    gather pairs = (keys pairs).map fun key => (key, valuesAt key pairs) := by
  induction pairs using List.reverseRecOn with
  | nil => rfl
  | append_singleton pairs p ih =>
    have free : p.1 ∉ keys pairs → valuesAt p.1 pairs = [] := by
      intro hfree
      rw [mem_keys, List.mem_map] at hfree
      rw [valuesAt, List.map_eq_nil_iff, List.filter_eq_nil_iff]
      intro r hr hkey
      exact hfree ⟨r, hr, by simpa using hkey⟩
    rw [gather_concat, ih, add_map (nodup_keys pairs) free, keys_concat]
    simp only [valuesAt_concat]

theorem keys_perm {pairs pairs' : List (κ × ν)}
    (h : ∀ key, key ∈ pairs.map Prod.fst ↔ key ∈ pairs'.map Prod.fst) :
    (keys pairs).Perm (keys pairs') := by
  refine (List.perm_ext_iff_of_nodup (nodup_keys pairs) (nodup_keys pairs')).mpr fun key => ?_
  rw [mem_keys, mem_keys, h]

theorem mem_map_fst {pairs : List (κ × ν)} {key : κ} :
    key ∈ pairs.map Prod.fst ↔ pairs.filter (·.1 = key) ≠ [] := by
  rw [List.mem_map, ne_eq, List.filter_eq_nil_iff]
  simp

/-! Blocks -/

theorem add_fresh {gathered : List (κ × List ν)} {key : κ} (fresh : ∀ g ∈ gathered, g.1 ≠ key)
    (value : ν) : add key value gathered = gathered ++ [(key, [value])] := by
  induction gathered with
  | nil => rfl
  | cons g gathered ih =>
    rw [List.forall_mem_cons] at fresh
    rw [add, if_neg fresh.1, ih fresh.2, List.cons_append]

theorem add_last {gathered : List (κ × List ν)} {key : κ} (fresh : ∀ g ∈ gathered, g.1 ≠ key)
    (value : ν) (values : List ν) :
    add key value (gathered ++ [(key, values)]) = gathered ++ [(key, values ++ [value])] := by
  induction gathered with
  | nil => rw [List.nil_append, add, if_pos rfl, List.nil_append]
  | cons g gathered ih =>
    rw [List.forall_mem_cons] at fresh
    rw [List.cons_append, add, if_neg fresh.1, ih fresh.2, List.cons_append]

/-- The values of a new key are gathered at the end. -/
theorem foldl_block {gathered : List (κ × List ν)} {key : κ} (fresh : ∀ g ∈ gathered, g.1 ≠ key)
    {values : List ν} (filled : values ≠ []) :
    (values.map (key, ·)).foldl (fun gathered p => add p.1 p.2 gathered) gathered =
      gathered ++ [(key, values)] := by
  obtain ⟨value, values, rfl⟩ := List.exists_cons_of_ne_nil filled
  have rest (before values : List ν) :
      (values.map (key, ·)).foldl (fun gathered p => add p.1 p.2 gathered) (gathered ++ [(key, before)]) =
        gathered ++ [(key, before ++ values)] := by
    induction values generalizing before with
    | nil => simp
    | cons v values ih =>
      rw [List.map_cons, List.foldl_cons, add_last fresh, ih, List.append_assoc, List.singleton_append]
  rw [List.map_cons, List.foldl_cons, add_fresh fresh, rest, List.singleton_append]

theorem foldl_blocks (before : List (κ × List ν)) {blocks : List (κ × List ν)}
    (filled : ∀ b ∈ blocks, b.2 ≠ []) (distinct : ((before ++ blocks).map Prod.fst).Nodup) :
    (blocks.flatMap fun b => b.2.map (b.1, ·)).foldl (fun gathered p => add p.1 p.2 gathered) before =
      before ++ blocks := by
  induction blocks generalizing before with
  | nil => simp
  | cons b blocks ih =>
    rw [List.forall_mem_cons] at filled
    have fresh : ∀ g ∈ before, g.1 ≠ b.1 := by
      rw [List.map_append, List.nodup_append] at distinct
      exact fun g hg => distinct.2.2 g.1 (List.mem_map_of_mem hg) b.1 (by simp)
    rw [List.flatMap_cons, List.foldl_append, foldl_block fresh filled.1, ih _ filled.2,
      List.append_assoc, List.singleton_append]
    rwa [List.append_assoc, List.singleton_append]

/-- Blocks of distinct keys are gathered into the blocks. -/
theorem gather_blocks {blocks : List (κ × List ν)} (filled : ∀ b ∈ blocks, b.2 ≠ [])
    (distinct : (blocks.map Prod.fst).Nodup) :
    gather (blocks.flatMap fun b => b.2.map (b.1, ·)) = blocks := foldl_blocks [] filled distinct

/-! Orders -/

/-- The same pairs, those of each key in the same order. -/
def Reorders (pairs pairs' : List (κ × ν)) : Prop :=
  ∀ key, pairs.filter (·.1 = key) = pairs'.filter (·.1 = key)

instance [DecidableEq ν] (pairs pairs' : List (κ × ν)) : Decidable (Reorders pairs pairs') :=
  decidable_of_iff (∀ key ∈ (pairs ++ pairs').map Prod.fst,
      pairs.filter (·.1 = key) = pairs'.filter (·.1 = key)) <| by
    refine ⟨fun h key => ?_, fun h key _ => h key⟩
    by_cases hkey : key ∈ (pairs ++ pairs').map Prod.fst
    · exact h key hkey
    · rw [List.map_append, List.mem_append, not_or, mem_map_fst, mem_map_fst, not_not, not_not] at hkey
      rw [hkey.1, hkey.2]

theorem Reorders.filter {pairs pairs' : List (κ × ν)} (h : Reorders pairs pairs') (p : κ × ν → Bool) :
    Reorders (pairs.filter p) (pairs'.filter p) := by
  intro key
  rw [List.filter_filter, List.filter_filter]
  simp only [Bool.and_comm _ (p _)]
  rw [← List.filter_filter, ← List.filter_filter, h key]

/-- Reordered pairs are gathered into the same. -/
theorem Reorders.gather_perm {pairs pairs' : List (κ × ν)} (h : Reorders pairs pairs') :
    (gather pairs).Perm (gather pairs') := by
  have hvalues : (fun key => (key, valuesAt key pairs)) = fun key => (key, valuesAt key pairs') := by
    funext key
    rw [valuesAt, valuesAt, h key]
  rw [gather_eq, gather_eq, hvalues]
  refine (keys_perm fun key => ?_).map _
  rw [mem_map_fst, mem_map_fst, h key]

end Gather

namespace Param
open Gather (gather Reorders)

/-! Parameters -/

theorem add_eq (key value : String) (gathered : List (String × List String)) :
    add key value (gathered.map fun g => ⟨g.1, g.2⟩) =
      (Gather.add key value gathered).map fun g => ⟨g.1, g.2⟩ := by
  induction gathered with
  | nil => rfl
  | cons g gathered ih =>
    rw [List.map_cons, add, Gather.add, ih]
    by_cases hkey : g.1 = key
    · rw [if_pos hkey, if_pos hkey, List.map_cons, hkey]
    · rw [if_neg hkey, if_neg hkey, List.map_cons]

/-- One pair. -/
def addPair (ps : List Param) (pair : String × String) : List Param :=
  if pair.1.isEmpty || pair.2.isEmpty then ps else add pair.1 pair.2 ps

/-- Both sides of a pair say something. -/
def isFilled (pair : String × String) : Bool := !(pair.1.isEmpty || pair.2.isEmpty)

theorem group_eq (pairs : List (String × String)) :
    group pairs = (gather (pairs.filter isFilled)).map fun g => ⟨g.1, g.2⟩ := by
  have run (gathered : List (String × List String)) :
      pairs.foldl addPair (gathered.map fun g => ⟨g.1, g.2⟩) =
        ((pairs.filter isFilled).foldl (fun gathered p => Gather.add p.1 p.2 gathered) gathered).map
          fun g => ⟨g.1, g.2⟩ := by
    induction pairs generalizing gathered with
    | nil => rfl
    | cons p pairs ih =>
      rw [List.foldl_cons, addPair, List.filter_cons, isFilled]
      by_cases hblank : (p.1.isEmpty || p.2.isEmpty) = true
      · rw [if_pos hblank, if_neg (by simp [hblank]), ih]
      · rw [if_neg hblank, if_pos (by simpa using hblank), List.foldl_cons, add_eq, ih]
  exact run []

/-- A parameter that pairs can be grouped into. -/
structure Given (p : Param) : Prop where
  key : p.key ≠ ""
  values : p.values ≠ []
  texts : ∀ v ∈ p.values, v ≠ ""

/-- The pairs of parameters are grouped into the parameters. -/
theorem group_pairs {ps : List Param} (given : ∀ p ∈ ps, p.Given) (distinct : (ps.map key).Nodup) :
    group (ps.flatMap pairs) = ps := by
  have hfilled : (ps.flatMap pairs).filter isFilled = ps.flatMap pairs := by
    refine List.filter_eq_self.mpr (List.forall_mem_flatMap.mpr fun p hp => ?_)
    refine List.forall_mem_map.mpr fun v hv => ?_
    simp [isFilled, (given p hp).key, (given p hp).texts v hv]
  have hgather : gather (ps.flatMap pairs) = ps.map fun p => (p.key, p.values) := by
    have hblocks : ps.flatMap pairs =
        (ps.map fun p => (p.key, p.values)).flatMap fun b => b.2.map (b.1, ·) := by
      rw [List.flatMap_map]
      rfl
    rw [hblocks]
    refine Gather.gather_blocks (List.forall_mem_map.mpr fun p hp => (given p hp).values) ?_
    rwa [List.map_map]
  rw [group_eq, hfilled, hgather, List.map_map]
  exact List.map_id ps

theorem nodup_group (pairs : List (String × String)) : ((group pairs).map key).Nodup := by
  have hkeys : (group pairs).map key = Gather.keys (pairs.filter isFilled) := by
    rw [group_eq, List.map_map]
    rfl
  rw [hkeys]
  exact Gather.nodup_keys _

theorem group_perm {pairs pairs' : List (String × String)} (h : Reorders pairs pairs') :
    (group pairs).Perm (group pairs') := by
  rw [group_eq, group_eq]
  exact (h.filter _).gather_perm.map _

/-! Levels -/

theorem addWhere_eq (level : Level) (p : WhereParam) (bs : List (Level × List WhereParam)) :
    addWhere level p bs = Gather.add level p bs := by
  induction bs with
  | nil => rfl
  | cons b bs ih => rw [addWhere, Gather.add, ih]

theorem wheres_eq_gather (params : List Param) : wheres params = gather (params.filterMap whereParam?) := by
  simp only [wheres, gather, addWhere_eq]

/-- The levels that have a `where` parameter. -/
def whereLevels (params : List Param) : List Level := Gather.keys (params.filterMap whereParam?)

/-- The `where` parameters of a level. -/
def wheresAt (params : List Param) (level : Level) : List WhereParam :=
  Gather.valuesAt level (params.filterMap whereParam?)

theorem wheres_eq (params : List Param) :
    wheres params = (whereLevels params).map fun level => (level, wheresAt params level) := by
  rw [wheres_eq_gather, Gather.gather_eq]
  rfl

theorem mem_whereLevels {params : List Param} {level : Level} :
    level ∈ whereLevels params ↔ ∃ p ∈ params, ∃ w, p.whereParam? = some (level, w) := by
  rw [whereLevels, Gather.mem_keys]
  simp only [List.mem_map, List.mem_filterMap, Prod.exists, exists_and_right, exists_eq_right]
  exact ⟨fun ⟨w, p, hp, h⟩ => ⟨p, hp, w, h⟩, fun ⟨p, hp, w, h⟩ => ⟨w, p, hp, h⟩⟩

section perm
variable {params params' : List Param} (h : params.Perm params')
include h

theorem whereLevels_perm : (whereLevels params).Perm (whereLevels params') :=
  Gather.keys_perm fun _ => ((h.filterMap whereParam?).map Prod.fst).mem_iff

theorem wheresAt_perm (level : Level) : (wheresAt params level).Perm (wheresAt params' level) :=
  ((h.filterMap whereParam?).filter _).map _

end perm
end Param

/-! Clauses -/

namespace WhereParam

/-- An algebra, or a clause under a tag of its own. -/
def IsExplicit (p : WhereParam) : Prop := p.segments = [] ∨ 3 ≤ p.segments.length

instance (p : WhereParam) : Decidable p.IsExplicit := inferInstanceAs (Decidable (_ ∨ _))

theorem IsExplicit.read {p : WhereParam} (h : p.IsExplicit) (index : Nat) : p.read index = p.read 0 := by
  obtain ⟨key, segments, values⟩ := p
  rcases segments with - | ⟨field, - | ⟨op, - | ⟨tag, - | ⟨more, rest⟩⟩⟩⟩
  · rfl
  · simp [IsExplicit] at h
  · simp [IsExplicit] at h
  · rfl
  · rfl

/-- What a parameter is read as tells whether it has segments. -/
theorem read_segments {p : WhereParam} {index : Nat} {reading : Reading} (h : p.read index = .ok reading) :
    (p.segments = [] ∧ ∃ text, p.values = [text] ∧ reading = .algebra text) ∨
      p.segments ≠ [] ∧ ∃ tag predicate, reading = .clause tag predicate := by
  have clause {field op tag : String} (h : p.clause field op tag = .ok reading) :
      ∃ tag predicate, reading = .clause tag predicate := by
    rw [WhereParam.clause] at h
    split at h
    · cases h
      exact ⟨_, _, rfl⟩
    · cases h
  rw [WhereParam.read] at h
  split at h
  · rename_i hnil
    split at h
    · rename_i text htext
      cases h
      exact .inl ⟨hnil, text, htext, rfl⟩
    · cases h
  · exact .inr ⟨by simp [*], clause h⟩
  · exact .inr ⟨by simp [*], clause h⟩
  · split at h
    · cases h
    · exact .inr ⟨by simp [*], clause h⟩
  · cases h

def algebra? (p : WhereParam) : Option String :=
  match p.read 0 with
  | .ok (.algebra text) => some text
  | _ => none

theorem algebra?_of_segments {p : WhereParam} (h : p.segments = [])
    (hread : ∃ reading, p.read 0 = .ok reading) : ∃ text, p.values = [text] ∧ p.algebra? = some text := by
  obtain ⟨reading, hread⟩ := hread
  rcases read_segments hread with ⟨-, text, htext, rfl⟩ | ⟨hcons, -⟩
  · exact ⟨text, htext, by rw [algebra?, hread]⟩
  · exact absurd h hcons

def clause? (p : WhereParam) : Option (String × Value) :=
  match p.read 0 with
  | .ok (.clause tag predicate) => some (tag, predicate)
  | _ => none

end WhereParam

namespace WhereClauses
open WhereParam (algebra? clause?)

/-- What one parameter adds: the algebra where there is none, or a clause under a new tag. -/
theorem add_eq_ok {found r : WhereClauses} {p : WhereParam} (explicit : p.IsExplicit) {index : Nat} :
    found.add p index = .ok r ↔
      (∃ text, p.read 0 = .ok (.algebra text) ∧ found.algebra = none ∧
        r = { found with algebra := some text }) ∨
      ∃ tag predicate, p.read 0 = .ok (.clause tag predicate) ∧ tag ∉ found.clauses.map Prod.fst ∧
        r = { found with clauses := found.clauses ++ [(tag, predicate)] } := by
  have hread := explicit.read index
  cases h : p.read 0 with
  | error e =>
    obtain ⟨e', hadd⟩ : ∃ e', found.add p index = .error e' := by
      rw [add, hread, h]
      split <;> exact ⟨_, rfl⟩
    simp [hadd]
  | ok reading =>
    rw [h] at hread
    rcases WhereParam.read_segments h with ⟨hnil, text, -, rfl⟩ | ⟨hcons, tag, predicate, rfl⟩
    · cases halgebra : found.algebra with
      | some other =>
        have hadd : found.add p index = .error (.param p.key .severalAlgebras) := by
          rw [add, if_pos (by simp [hnil, halgebra])]
          rfl
        simp [hadd]
      | none =>
        have hadd : found.add p index = .ok { found with algebra := some text } := by
          rw [add, if_neg (by simp [halgebra]), hread]
          rfl
        simp [hadd, eq_comm]
    · have hlookup : (found.clauses.lookup tag).isSome ↔ tag ∈ found.clauses.map Prod.fst := by
        simp [List.lookup_isSome_iff]
      by_cases hfree : tag ∈ found.clauses.map Prod.fst
      · have hadd : found.add p index = .error (.param p.key (.duplicateTag tag)) := by
          rw [add, if_neg (by simp [hcons]), hread]
          simp only [Except.monad_bind, Except.monad_pure, Except.ok_bind]
          rw [if_pos (hlookup.mpr hfree)]
          rfl
        refine iff_of_false (by simp [hadd]) ?_
        rintro (⟨_, ⟨⟩, -⟩ | ⟨_, _, ⟨⟩, hnew, -⟩)
        exact hnew hfree
      · have hadd : found.add p index =
            .ok { found with clauses := found.clauses ++ [(tag, predicate)] } := by
          rw [add, if_neg (by simp [hcons]), hread]
          simp only [Except.monad_bind, Except.monad_pure, Except.ok_bind]
          rw [if_neg (hlookup.not.mpr hfree)]
        rw [hadd, Except.ok.injEq]
        constructor
        · exact fun heq => .inr ⟨tag, predicate, rfl, hfree, heq.symm⟩
        · rintro (⟨_, ⟨⟩, -⟩ | ⟨_, _, ⟨⟩, -, rfl⟩)
          rfl

theorem nodup_concat {clauses : List (String × Value)} (nodup : (clauses.map Prod.fst).Nodup)
    {tag : String} (hnew : tag ∉ clauses.map Prod.fst) {predicate : Value} :
    ((clauses ++ [(tag, predicate)]).map Prod.fst).Nodup := by
  rw [List.map_append]
  exact nodup.append (List.nodup_singleton tag) (by simpa using hnew)

/-- What parameters add together: their clauses, in their order, under one algebra at most. -/
theorem collect_eq_ok {ps : List WhereParam} (explicit : ∀ p ∈ ps, p.IsExplicit) {index : Nat}
    {found r : WhereClauses} (nodup : (found.clauses.map Prod.fst).Nodup) :
    collect ps index found = .ok r ↔ (∀ p ∈ ps, ∃ reading, p.read 0 = .ok reading) ∧
      (found.algebra.toList ++ ps.filterMap algebra?).length ≤ 1 ∧
      ((found.clauses ++ ps.filterMap clause?).map Prod.fst).Nodup ∧
      r = ⟨(found.algebra.toList ++ ps.filterMap algebra?).head?,
        found.clauses ++ ps.filterMap clause?⟩ := by
  induction ps generalizing found index with
  | nil =>
    obtain ⟨algebra, clauses⟩ := found
    cases algebra <;> simpa [collect, eq_comm] using fun _ => nodup
  | cons p ps ih =>
    rw [List.forall_mem_cons] at explicit
    rw [collect, Except.monad_bind_eq_ok]
    simp only [add_eq_ok explicit.1]
    cases h : p.read 0 with
    | error e => simp [h]
    | ok reading =>
      cases reading with
      | algebra text =>
        have halgebra : algebra? p = some text := by rw [algebra?, h]
        have hclause : clause? p = none := by rw [clause?, h]
        rw [List.filterMap_cons_some halgebra, List.filterMap_cons_none hclause, List.forall_mem_cons]
        have ih := @ih explicit.2 (index + 1) ⟨some text, found.clauses⟩ nodup
        constructor
        · rintro ⟨_, (⟨_, ⟨⟩, hnone, rfl⟩ | ⟨_, _, ⟨⟩, -⟩), hrest⟩
          obtain ⟨hreads, hone, hnodup, hr⟩ := ih.mp hrest
          rw [hnone]
          exact ⟨⟨⟨_, h⟩, hreads⟩, hone, hnodup, hr⟩
        · rintro ⟨⟨-, hreads⟩, hone, hnodup, hr⟩
          have hnone : found.algebra = none := by
            cases hother : found.algebra with
            | none => rfl
            | some other => simp [hother] at hone
          rw [hnone] at hone hr
          exact ⟨_, .inl ⟨text, rfl, hnone, rfl⟩, ih.mpr ⟨hreads, hone, hnodup, hr⟩⟩
      | clause tag predicate =>
        have halgebra : algebra? p = none := by rw [algebra?, h]
        have hclause : clause? p = some (tag, predicate) := by rw [clause?, h]
        rw [List.filterMap_cons_none halgebra, List.filterMap_cons_some hclause, List.forall_mem_cons,
          ← List.singleton_append (l := ps.filterMap clause?), ← List.append_assoc]
        constructor
        · rintro ⟨_, (⟨_, ⟨⟩, -⟩ | ⟨_, _, ⟨⟩, hnew, rfl⟩), hrest⟩
          obtain ⟨hreads, hrest⟩ := (ih explicit.2 (nodup_concat nodup hnew)).mp hrest
          exact ⟨⟨⟨_, h⟩, hreads⟩, hrest⟩
        · rintro ⟨⟨-, hreads⟩, hone, hnodup, hr⟩
          have hfound : ((found.clauses ++ [(tag, predicate)]).map Prod.fst).Nodup := by
            rw [List.map_append] at hnodup
            exact hnodup.of_append_left
          have hnew : tag ∉ found.clauses.map Prod.fst := by
            rw [List.map_append, List.nodup_append] at hfound
            exact fun hmem => hfound.2.2 tag hmem tag (by simp) rfl
          exact ⟨_, .inr ⟨tag, predicate, rfl, hnew, rfl⟩,
            (ih explicit.2 hfound).mpr ⟨hreads, hone, hnodup, hr⟩⟩

theorem collect_all {ps : List WhereParam} (explicit : ∀ p ∈ ps, p.IsExplicit) {r : WhereClauses} :
    collect ps 0 {} = .ok r ↔ (∀ p ∈ ps, ∃ reading, p.read 0 = .ok reading) ∧
      (ps.filterMap algebra?).length ≤ 1 ∧ ((ps.filterMap clause?).map Prod.fst).Nodup ∧
      r = ⟨(ps.filterMap algebra?).head?, ps.filterMap clause?⟩ :=
  @collect_eq_ok ps explicit 0 {} r List.nodup_nil

/-- Under such an algebra the clauses may stand in any order. -/
theorem predicate_perm {text : String} (hand : text ≠ "and") (hor : text ≠ "or")
    {clauses clauses' : List (String × Value)} (h : clauses.Perm clauses')
    (nodup : (clauses.map Prod.fst).Nodup) {v : Value} :
    predicate ⟨some text, clauses⟩ = .ok v ↔ predicate ⟨some text, clauses'⟩ = .ok v := by
  have nodup' : (clauses'.map Prod.fst).Nodup := (h.map _).nodup_iff.mp nodup
  have hofList : Entries.ofList clauses = Entries.ofList clauses' :=
    Entries.ofList_of_perm (h.trans (Entries.perm_ofList nodup').symm) (Entries.sorted_ofList _)
  rw [predicate_algebra hand hor, predicate_algebra hand hor, hofList]

end WhereClauses

/-- One parameter alone, or clauses under tags of their own and an algebra that is not a bare word. -/
def Tagged (ps : List WhereParam) : Prop :=
  ps.length = 1 ∨
    (∃ p ∈ ps, p.segments = [] ∧ p.values ≠ ["and"] ∧ p.values ≠ ["or"]) ∧ ∀ p ∈ ps, p.IsExplicit

instance (ps : List WhereParam) : Decidable (Tagged ps) := inferInstanceAs (Decidable (_ ∨ _))

theorem Tagged.perm {ps ps' : List WhereParam} (tagged : Tagged ps) (h : ps.Perm ps') : Tagged ps' := by
  refine tagged.imp (fun hone => h.length_eq ▸ hone) ?_
  rintro ⟨⟨p, hp, halgebra⟩, explicit⟩
  exact ⟨⟨p, h.mem_iff.mp hp, halgebra⟩, fun p hp => explicit p (h.mem_iff.mpr hp)⟩

theorem assembleWhere_of_perm {ps ps' : List WhereParam} (tagged : Tagged ps) (h : ps.Perm ps') {v : Value}
    (hv : assembleWhere ps = .ok v) : assembleWhere ps' = .ok v := by
  rcases tagged with hone | ⟨⟨p, hp, hnil, hand, hor⟩, explicit⟩
  · obtain ⟨p, rfl⟩ := List.length_eq_one_iff.mp hone
    rwa [List.perm_singleton.mp h.symm]
  · have explicit' : ∀ p ∈ ps', p.IsExplicit := fun p hp => explicit p (h.mem_iff.mpr hp)
    have halgebras := h.filterMap WhereParam.algebra?
    have hclauses := h.filterMap WhereParam.clause?
    obtain ⟨found, hcollect, hpredicate⟩ := Except.monad_bind_eq_ok.mp hv
    obtain ⟨hreads, hone, hnodup, rfl⟩ := (WhereClauses.collect_all explicit).mp hcollect
    obtain ⟨text, htext, halgebra⟩ := WhereParam.algebra?_of_segments hnil (hreads p hp)
    -- there is no other algebra than the one of `p`, so it is the one that is found in either order
    have hmem : text ∈ ps.filterMap WhereParam.algebra? := List.mem_filterMap.mpr ⟨p, hp, halgebra⟩
    obtain ⟨other, hother⟩ : ∃ other, ps.filterMap WhereParam.algebra? = [other] :=
      List.length_eq_one_iff.mp (Nat.le_antisymm hone (List.length_pos_of_mem hmem))
    rw [hother, List.mem_singleton] at hmem
    subst hmem
    rw [hother] at halgebras hpredicate
    have hcollect' : WhereClauses.collect ps' 0 {} =
        .ok ⟨some text, ps'.filterMap WhereParam.clause?⟩ := by
      rw [WhereClauses.collect_all explicit', List.perm_singleton.mp halgebras.symm]
      exact ⟨fun p hp => hreads p (h.mem_iff.mpr hp), Nat.le_refl 1,
        (hclauses.map Prod.fst).nodup_iff.mp hnodup, rfl⟩
    have hand' : text ≠ "and" := fun heq => hand (heq ▸ htext)
    have hor' : text ≠ "or" := fun heq => hor (heq ▸ htext)
    rw [assembleWhere, hcollect', Except.monad_bind, Except.ok_bind]
    exact (WhereClauses.predicate_perm hand' hor' hclauses hnodup).mp hpredicate

/-- The predicate of a level does not depend on the order of its parameters. -/
theorem assembleWhere_perm {ps ps' : List WhereParam} (tagged : Tagged ps) (h : ps.Perm ps') :
    (assembleWhere ps).toOption = (assembleWhere ps').toOption := by
  refine Option.ext fun v => ?_
  rw [Except.toOption_eq_some, Except.toOption_eq_some]
  exact ⟨assembleWhere_of_perm tagged h, assembleWhere_of_perm (tagged.perm h) h.symm⟩

end RecordGraph
