import RecordGraph.Proofs.Predicate.Storage
import RecordGraph.Proofs.Query.Maps

/-!
Columns of stored records. Sorting and rendering read a record at a storage path, while a predicate has
the path as a reference into the record. The two read the same, except where the first segment of the
path names a scope: under `fields` a reference leads on from the record itself, and the other scopes are
not there.
-/
namespace RecordGraph
open Param (nestAlong)

/-! Values along a path -/

namespace Value
variable {v w : Value} {names path : List String}

/-- Where keys of maps lead, the segments lead too. -/
theorem descend_of_along? (h : v.along? names = some w) : v.descend names = some w := by
  induction names generalizing v with
  | nil => exact h
  | cons name names ih =>
    obtain ⟨next, hnext, hw⟩ := Option.bind_eq_some_iff.mp h
    cases v with
    | obj es =>
      have entry : (obj es).child? name = some next := hnext
      rw [descend, entry]
      exact ih hw
    | null | bool | num | str | arr => cases hnext

theorem along?_nestAlong (v : Value) (path : List String) : (nestAlong v path).along? path = some v := by
  induction path with
  | nil => rfl
  | cons name path ih =>
    have entry : (nestAlong v (name :: path)).get? name = some (nestAlong v path) :=
      (Entries.get?_cons (name, nestAlong v path) [] name).trans (if_pos rfl)
    rw [along?, entry]
    exact ih

/-- From a text at the end of a path, segments lead only along the path. -/
theorem exists_of_descend_nestAlong {s : String} (h : (nestAlong (.str s) path).descend names = some w) :
    ∃ rest, path = names ++ rest ∧ w = nestAlong (.str s) rest := by
  induction names generalizing path with
  | nil =>
    cases h
    exact ⟨path, rfl, rfl⟩
  | cons name names ih =>
    obtain ⟨next, hnext, hw⟩ := Option.bind_eq_some_iff.mp h
    cases path with
    | nil => cases hnext
    | cons first path =>
      change Entries.get? [(first, nestAlong (.str s) path)] name = some next at hnext
      rw [Entries.get?_cons] at hnext
      split at hnext
      · rename_i same
        cases same
        cases hnext
        obtain ⟨rest, hpath, hrest⟩ := ih hw
        exact ⟨rest, congrArg (List.cons _) hpath, hrest⟩
      · cases hnext

theorem canonical_nestAlong (s : String) (path : List String) : (nestAlong (.str s) path).Canonical := by
  induction path with
  | nil => simp [nestAlong, Canonical]
  | cons name path ih =>
    exact canonical_obj_iff.mpr ⟨List.pairwise_singleton _ _, by simpa using ih⟩

/-- A text that is merged in along a path stands at its end. -/
theorem along?_onto_nestAlong (v : Value) (t : String) (path : List String) :
    (v.onto (nestAlong (.str t) path)).along? path = some (.str t) := by
  rw [along?_onto (canonical_nestAlong t path) (along?_nestAlong _ _), put, Replaces.onto ⟨rfl, rfl⟩]

/-- Beside the path, keys lead where they led. -/
theorem along?_onto_nestAlong_apart (h : ¬path <+: names) (h' : ¬names <+: path) (v : Value) (t : String) :
    (v.onto (nestAlong (.str t) path)).along? names = v.along? names := by
  have beside : (nestAlong (.str t) path).along? names = none := by
    cases hw : (nestAlong (.str t) path).along? names with
    | none => rfl
    | some w =>
      obtain ⟨rest, hpath, -⟩ := exists_of_descend_nestAlong (descend_of_along? hw)
      exact absurd ⟨rest, hpath.symm⟩ h'
  refine along?_onto_of_none (canonical_nestAlong t path) beside (fun above w habove hw replaces => ?_) v
  obtain ⟨rest, hpath, rfl⟩ := exists_of_descend_nestAlong (descend_of_along? hw)
  cases rest with
  | nil =>
    rw [List.append_nil] at hpath
    exact h (hpath ▸ habove)
  | cons => cases replaces.1

end Value

/-- Texts can stand at any paths of which none leads on from another. -/
theorem exists_record_along (paths : List (List String)) (filled : [] ∉ paths)
    (apart : ∀ path ∈ paths, ∀ other ∈ paths, path <+: other → path = other)
    (text : List String → String) :
    ∃ record : Record, ∀ path ∈ paths, (Value.obj record).along? path = some (.str (text path)) := by
  induction paths with
  | nil => exact ⟨[], by simp⟩
  | cons path paths ih =>
    rw [List.mem_cons, not_or] at filled
    obtain ⟨record, hrecord⟩ := ih filled.2 fun p hp p' hp' =>
      apart p (List.mem_cons_of_mem _ hp) p' (List.mem_cons_of_mem _ hp')
    obtain ⟨name, rest, rfl⟩ := List.exists_cons_of_ne_nil (Ne.symm filled.1)
    have here := Value.along?_onto_nestAlong (.obj record) (text (name :: rest)) (name :: rest)
    refine ⟨mergeEntries record (Value.leafMap (name :: rest, .str (text (name :: rest)))),
      List.forall_mem_cons.mpr ⟨here, fun other hother => ?_⟩⟩
    by_cases same : other = name :: rest
    · rw [same]
      exact here
    · have hmem := List.mem_cons_of_mem (name :: rest) hother
      have beside := Value.along?_onto_nestAlong_apart
        (fun h => same (apart _ List.mem_cons_self other hmem h).symm)
        (fun h => same (apart other hmem _ List.mem_cons_self h)) (.obj record) (text (name :: rest))
      exact beside.trans (hrecord other hother)

/-! Columns as references -/

namespace Record
variable {path : String} {record : Record}

theorem read_eq_descend (record : Record) (filled : "" ∉ Text.pieces '.' path) :
    record.read path = (Value.obj record).descend (Text.pieces '.' path) := by
  rw [read_eq_lookup record filled, Value.lookup_of_ne_empty (ne_empty_of_pieces filled)]

/-- Where the segments of a reference lead in a record: from the record itself under `fields`, nowhere in
another scope, and else to what is stored there. -/
def seen (record : Record) : List String → Option Value
  | "fields" :: rest => (Value.obj record).descend rest
  | "request" :: _ => none
  | "query" :: _ => none
  | segments => (Value.obj record).descend segments

theorem seen_of_unscoped (filled : "" ∉ Text.pieces '.' path) (unscoped : Expr.isScoped path = false) :
    record.seen (Text.pieces '.' path) = record.read path := by
  rw [read_eq_descend record filled]
  unfold Expr.isScoped at unscoped
  unfold seen
  split <;> simp_all

/-- A record can hold a text at a path in a scope, where a reference does not read the text. -/
theorem exists_hidden {scope : String} (hscope : scope ∈ ["fields", "request", "query"])
    (rest : List String) (t : String) :
    ∃ record : Record, (Value.obj record).descend (scope :: rest) = some (.str t) ∧
      record.seen (scope :: rest) ≠ some (.str t) := by
  refine ⟨Value.leafMap (scope :: rest, .str t), Value.descend_of_along? (Value.along?_nestAlong _ _), ?_⟩
  simp only [List.mem_cons, List.not_mem_nil, or_false] at hscope
  rcases hscope with rfl | rfl | rfl
  · intro h
    have led : (nestAlong (.str t) ("fields" :: rest)).descend rest = some (.str t) := h
    obtain ⟨below, hpath, hleaf⟩ := Value.exists_of_descend_nestAlong led
    have length := congrArg List.length hpath
    cases below with
    | nil => simp at length
    | cons => cases hleaf
  · exact nofun
  · exact nofun

end Record

namespace Expr
variable {path : String}

theorem isScoped_iff : isScoped path ↔
    ∃ scope ∈ ["fields", "request", "query"], ∃ rest, Text.pieces '.' path = scope :: rest := by
  obtain ⟨first, rest, hpieces⟩ := List.exists_cons_of_ne_nil (Text.pieces_ne_nil '.' path)
  rw [isScoped, hpieces]
  simp only [List.head?_cons, List.cons.injEq]
  split <;> simp_all

/-- A reference of filled segments, not in quotes, reads from a record where its segments lead. -/
theorem evalText_path (filled : "" ∉ Text.pieces '.' path) (bare : unquoted? path = none)
    (record : Record) :
    evalText (.node "fields" (.obj record)) path = (record.seen (Text.pieces '.' path)).getD .null := by
  have hpath := ne_empty_of_pieces filled
  rw [evalText, bare]
  simp only [String.isEmpty_iff, hpath, if_false]
  cases hscope : isScoped path with
  | false =>
    rw [get_in_record record hpath (afterChar?_of_pieces filled) hscope rfl,
      ← record.read_eq_lookup filled, Record.seen_of_unscoped filled hscope]
  | true =>
    have resolved : resolvedPath path (.node "fields" (.obj record)) = path := by
      simp [resolvedPath, afterChar?_of_pieces filled, hscope]
    rw [get, resolved, Value.lookup_of_ne_empty hpath]
    obtain ⟨scope, hscope, rest, hpieces⟩ := isScoped_iff.mp hscope
    rw [hpieces]
    simp only [List.mem_cons, List.not_mem_nil, or_false] at hscope
    rcases hscope with rfl | rfl | rfl <;> rfl

theorem eval_path (filled : "" ∉ Text.pieces '.' path) (bare : unquoted? path = none) (record : Record) :
    eval (.node "fields" (.obj record)) (.str path) =
      .ok ((record.seen (Text.pieces '.' path)).getD .null) :=
  congrArg Except.ok (evalText_path filled bare record)

/-- What an unscoped path, and no other, reads from every record as a reference is what is stored there. -/
theorem eval_storagePath (filled : "" ∉ Text.pieces '.' path) (bare : unquoted? path = none) :
    (∀ record : Record, eval (.node "fields" (.obj record)) (.str path) =
      .ok ((record.seen (Text.pieces '.' path)).getD .null)) ∧
    ((∀ record : Record, eval (.node "fields" (.obj record)) (.str path) =
      .ok ((record.read path).getD .null)) ↔ isScoped path = false) := by
  refine ⟨eval_path filled bare, fun agree => ?_, fun hscope record => ?_⟩
  · by_contra hscope
    obtain ⟨scope, hscope, rest, hpieces⟩ := isScoped_iff.mp (Bool.eq_true_of_not_eq_false hscope)
    obtain ⟨record, stored, hidden⟩ := Record.exists_hidden hscope rest "x"
    have same := agree record
    rw [eval_path filled bare, Record.read_eq_descend record filled, hpieces, stored] at same
    cases hseen : record.seen (scope :: rest) with
    | none =>
      rw [hseen] at same
      cases same
    | some v =>
      rw [hseen] at same hidden
      exact hidden (congrArg some (Except.ok.inj same))
  · rw [eval_path filled bare, Record.seen_of_unscoped filled hscope]

theorem eval_storagePath_title : "" ∉ Text.pieces '.' "meta.title" ∧ unquoted? "meta.title" = none ∧
    ∀ record : Record, eval (.node "fields" (.obj record)) (.str "meta.title") =
      .ok ((record.read "meta.title").getD .null) := by
  have filled : "" ∉ Text.pieces '.' "meta.title" := by decide
  have bare : unquoted? "meta.title" = none := by decide
  exact ⟨filled, bare, (eval_storagePath filled bare).2.mpr (by decide)⟩

/-- What is stored under the name of a scope is null to a reference. -/
theorem eval_storagePath_request :
    let record : Record := [("request", .str "x")]
    "" ∉ Text.pieces '.' "request" ∧ unquoted? "request" = none ∧
      record.read "request" = some (.str "x") ∧
      eval (.node "fields" (.obj record)) (.str "request") = .ok .null := by
  exact ⟨by decide, by decide, rfl, rfl⟩

end Expr
end RecordGraph
