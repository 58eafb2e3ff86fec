import RecordGraph.Proofs.Query.Leaves
import RecordGraph.Proofs.Value.Canonical

/-!
Maps merged into maps. What keys lead to in a merged map is told by what they lead to in the two maps:
merging adds and puts in place, but loses a path only below a value that is neither a map nor a truth
value, and merging again changes nothing.
-/
namespace RecordGraph
namespace Value
variable {u v w x : Value} {key : String} {path rest above : List String}

/-! Keys of keys -/

/-- What keys lead to, one after the other, through maps. -/
def along? : List String → Value → Option Value
  | [], v => some v
  | key :: rest, v => (v.get? key).bind (along? rest)

theorem along?_append (v : Value) (path rest : List String) :
    v.along? (path ++ rest) = (v.along? path).bind (along? rest) := by
  induction path generalizing v with
  | nil => rfl
  | cons key path ih =>
    rw [List.cons_append, along?, along?]
    cases v.get? key with
    | none => rfl
    | some next => exact ih next

theorem along?_cons_of_leaf (leaf : v.obj? = none) (key : String) (rest : List String) :
    v.along? (key :: rest) = none := by
  rw [along?, get?, leaf]
  rfl

/-- Keys lead on from what stands at the first as from a null if nothing does. -/
theorem along?_getD (v : Value) (key : String) (rest : List String) :
    (((v.get? key).getD .null).along? rest).getD .null = (v.along? (key :: rest)).getD .null := by
  rw [along?]
  cases v.get? key with
  | none => cases rest <;> rfl
  | some next => rfl

theorem along?_getD_of_ne_nil (filled : rest ≠ []) (v : Value) (key : String) :
    ((v.get? key).getD .null).along? rest = v.along? (key :: rest) := by
  obtain ⟨next, rest, rfl⟩ := List.exists_cons_of_ne_nil filled
  rw [along?.eq_2 v key]
  cases v.get? key <;> rfl

/-! Merging -/

/-- What comes to stand at a key that an entry of a map is merged into. -/
def put (current : Option Value) (v : Value) : Value := (current.getD .null).onto v

theorem mergeEntries_eq (existing : Entries Value) (incoming : List (String × Value)) :
    mergeEntries existing incoming = existing.mergeBy put incoming := by
  induction incoming generalizing existing with
  | nil => rfl
  | cons e incoming ih => exact ih _

theorem onto_obj {es : Entries Value} (sorted : es.Sorted) (v : Value) :
    v.onto (.obj es) = .obj (Entries.mergeBy put (v.obj?.getD []) es) := by
  cases v with
  | obj existing => rw [onto, mergeEntries_eq]; rfl
  | null | bool | num | str | arr =>
    exact congrArg obj (Entries.mergeBy_nil onto_null sorted).symm

theorem get?_onto {es : Entries Value} (sorted : es.Sorted) (v : Value) (key : String) :
    (v.onto (.obj es)).get? key = ((es.get? key).map (put (v.get? key))).or (v.get? key) := by
  have existing : (v.obj?.getD []).get? key = v.get? key := by cases v <;> rfl
  rw [onto_obj sorted, get?, obj?, Option.bind_some, Entries.get?_mergeBy sorted.nodup, existing]

/-- A value that takes the place of whatever it is merged into. -/
def Replaces (v : Value) : Prop := v.obj? = none ∧ v.bool? = none

theorem Replaces.onto (h : x.Replaces) (v : Value) : v.onto x = x := by
  obtain ⟨leaf, other⟩ := h
  cases x with
  | obj => cases leaf
  | bool => cases other
  | _ => rfl

/-- What is no map takes the place of what it is merged into, but a truth value that of a map. -/
theorem onto_leaf (leaf : x.obj? = none) (v : Value) :
    v.onto x = if x.bool?.isSome ∧ v.obj?.isSome then v else x := by
  cases x with
  | obj => cases leaf
  | bool b => cases v <;> rfl
  | _ => rfl

theorem canonical_of_get? {es : Entries Value} (canonical : (obj es).Canonical)
    (h : es.get? key = some v) : v.Canonical :=
  (canonical_obj_iff.mp canonical).2 _ (Entries.mem_of_get? h)

/-- Where keys lead to something in what is merged, it is merged into what they led to. -/
theorem along?_onto (canonical : w.Canonical) (h : w.along? path = some x) (v : Value) :
    (v.onto w).along? path = some (put (v.along? path) x) := by
  induction path generalizing v w with
  | nil =>
    cases h
    rfl
  | cons key rest ih =>
    obtain ⟨next, hnext, hx⟩ := Option.bind_eq_some_iff.mp h
    cases w with
    | obj es =>
      have entry : Entries.get? es key = some next := hnext
      have sorted := (canonical_obj_iff.mp canonical).1
      rw [along?, get?_onto sorted, entry, Option.map_some, Option.some_or, Option.bind_some, put,
        ih (canonical_of_get? canonical entry) hx, put, along?_getD]
      rfl
    | null | bool | num | str | arr => cases hnext

/-- Where they lead to nothing there, they lead where they led, unless something on the way takes the
place of a map. -/
theorem along?_onto_of_none (canonical : w.Canonical) (h : w.along? path = none)
    (kept : ∀ above x, above <+: path → w.along? above = some x → ¬x.Replaces) (v : Value) :
    (v.onto w).along? path = v.along? path := by
  induction path generalizing v w with
  | nil => cases h
  | cons key rest ih =>
    cases w with
    | obj es =>
      have sorted := (canonical_obj_iff.mp canonical).1
      rw [along?, get?_onto sorted]
      cases entry : Entries.get? es key with
      | none => rfl
      | some next =>
        have below : next.along? rest = none := by
          change (Entries.get? es key).bind (along? rest) = none at h
          rwa [entry] at h
        have filled : rest ≠ [] := by
          rintro rfl
          cases below
        have kept' (above : List String) (x : Value) (hp : above <+: rest)
            (hx : next.along? above = some x) : ¬x.Replaces := by
          refine kept (key :: above) x (List.cons_prefix_cons.mpr ⟨rfl, hp⟩) ?_
          change (Entries.get? es key).bind (along? above) = some x
          rw [entry]
          exact hx
        rw [Option.map_some, Option.some_or, Option.bind_some, put,
          ih (canonical_of_get? canonical entry) below kept', along?_getD_of_ne_nil filled]
    | bool b => cases v <;> rfl
    | null | num | str | arr => exact absurd ⟨rfl, rfl⟩ (kept [] _ List.nil_prefix rfl)

/-- Keys lead nowhere below something that takes the place of a map. -/
theorem along?_onto_below (canonical : w.Canonical) (h : w.along? above = some x) (replaces : x.Replaces)
    (filled : rest ≠ []) (v : Value) : (v.onto w).along? (above ++ rest) = none := by
  obtain ⟨key, rest, rfl⟩ := List.exists_cons_of_ne_nil filled
  rw [along?_append, along?_onto canonical h, Option.bind_some, put, replaces.onto,
    along?_cons_of_leaf replaces.1]

/-- To merge the same value in again changes nothing. -/
theorem onto_onto (canonical : w.Canonical) (v : Value) : (v.onto w).onto w = v.onto w := by
  induction w generalizing v with
  | null | num | str | arr => rfl
  | bool b => cases v <;> rfl
  | obj es ih =>
    obtain ⟨sorted, each⟩ := canonical_obj_iff.mp canonical
    have again (e : String × Value) (he : e ∈ es) (current : Option Value) :
        put (some (put current e.2)) e.2 = put current e.2 := ih e he (each e he) _
    rw [onto_obj sorted, onto_obj sorted]
    exact congrArg obj (Entries.mergeBy_mergeBy sorted.nodup again)

end Value

/-! Maps that may be absent -/

/-- What keys lead to in a map, if there is one. -/
def mapAlong? (es : Option (Entries Value)) (path : List String) : Option Value :=
  es.bind fun es => (Value.obj es).along? path

/-- Above the end of a path, a map has something that takes the place of a map. -/
def Severs (es : Option (Entries Value)) (path : List String) : Prop :=
  ∃ above rest v, path = above ++ rest ∧ rest ≠ [] ∧ mapAlong? es above = some v ∧ v.Replaces

theorem not_severs_none {path : List String} : ¬Severs none path := by
  rintro ⟨above, rest, v, -, -, ⟨⟩, -⟩

section mergeMap
variable {old new : Option (Entries Value)} {path : List String} {v : Value}
  (canonical : ∀ es, new = some es → (Value.obj es).Canonical)
include canonical

theorem mergeMap_mergeMap : mergeMap true (mergeMap true old new) new = mergeMap true old new := by
  cases new with
  | none => rfl
  | some es =>
    have again (v : Value) := Value.onto_onto (canonical es rfl) v
    cases old with
    | none => exact congrArg Value.obj? (again .null)
    | some existing => exact congrArg Value.obj? (again (.obj existing))

theorem mapAlong?_mergeMap (h : mapAlong? new path = some v) :
    mapAlong? (mergeMap true old new) path = some (((mapAlong? old path).getD .null).onto v) := by
  cases new with
  | none => cases h
  | some es =>
    cases old with
    | none => exact h.trans (congrArg some (Value.onto_null v).symm)
    | some existing => exact Value.along?_onto (canonical es rfl) h (.obj existing)

theorem mapAlong?_mergeMap_of_none (h : mapAlong? new path = none) (kept : ¬Severs new path) :
    mapAlong? (mergeMap true old new) path = mapAlong? old path := by
  cases new with
  | none => rfl
  | some es =>
    cases old with
    | none => exact h
    | some existing =>
      refine Value.along?_onto_of_none (canonical es rfl) h (fun above x hp hx replaces => kept ?_)
        (.obj existing)
      obtain ⟨rest, rfl⟩ := hp
      refine ⟨above, rest, x, rfl, ?_, hx, replaces⟩
      rintro rfl
      rw [List.append_nil] at h
      cases hx.symm.trans h

/-- A path of a map is kept by merging another into it if nothing above its end takes the place of a
map, and only then. -/
theorem isSome_mapAlong?_mergeMap (h : (mapAlong? old path).isSome) :
    (mapAlong? (mergeMap true old new) path).isSome ↔ ¬Severs new path := by
  constructor
  · rintro kept ⟨above, rest, x, rfl, filled, hx, replaces⟩
    cases new with
    | none => cases hx
    | some es =>
      cases old with
      | none => cases h
      | some existing =>
        have lost := Value.along?_onto_below (canonical es rfl) hx replaces filled (.obj existing)
        change ((((Value.obj existing).onto (.obj es)).along? (above ++ rest)).isSome) = true at kept
        rw [lost] at kept
        cases kept
  · intro kept
    cases hnew : mapAlong? new path with
    | none => rwa [mapAlong?_mergeMap_of_none canonical hnew kept]
    | some v =>
      rw [mapAlong?_mergeMap canonical hnew]
      rfl

end mergeMap
end RecordGraph
