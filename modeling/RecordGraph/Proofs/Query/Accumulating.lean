import RecordGraph.Proofs.Query.Levels
import RecordGraph.Proofs.Query.Commuting
import RecordGraph.Proofs.Query.Maps

/-!
Patches merged into states. A patch merges its levels into those of the state, level by level: what the
patch has for no level stays, nested states stay nested, names stay taken, and merging it a second time
changes nothing.
-/
namespace RecordGraph
namespace Query
variable {p q patch state : Query} {name : String} {names more : List String}

/-! Merging again -/

theorem empty_apply (p : Query) : ({} : Query).apply p true = p := by
  obtain ⟨space, resource, record, field, action, inspect, take, filter, sort, page, group⟩ := p
  cases inspect <;> cases take <;> cases page <;> cases group <;> simp [apply, mergeMap, mergePage]

theorem or_or {α : Type} (a b : Option α) : a.or (a.or b) = a.or b := by cases a <;> rfl

theorem mergePage_mergePage (old new : Option Page) :
    mergePage true (mergePage true old new) new = mergePage true old new := by
  cases new with
  | none => rfl
  | some new => cases old <;> simp [mergePage, or_or]

theorem putTake_nested (current : Option Take) (p : Query) : putTake current (.nested p) =
    .nested (((current.getD (.flag true)).stateOrEmpty).apply p true) := by
  rcases current with - | (taken | state)
  · exact congrArg Take.nested (empty_apply p).symm
  · exact congrArg Take.nested (empty_apply p).symm
  · rfl

/-- To merge the same patch in again changes nothing. -/
theorem apply_apply (ordered : ∀ l, p.IsLevel l → l.Ordered) (q : Query) :
    (q.apply p true).apply p true = q.apply p true := by
  induction p using inductionOn generalizing q with
  | step p ih =>
    have own := ordered p (.self p)
    have htake : ((q.apply p true).apply p true).take = (q.apply p true).take := by
      rw [take_apply, take_apply]
      cases hts : p.take with
      | none => rfl
      | some ts =>
        have sorted := own.take ts hts
        -- a flag is kept by the state or the flag it made; a state is merged again into one it was merged into
        have again (e : String × Take) (he : e ∈ ts) (current : Option Take) :
            putTake (some (putTake current e.2)) e.2 = putTake current e.2 := by
          obtain ⟨name, t⟩ := e
          cases t with
          | flag taken => rcases current with - | (taken | state) <;> rfl
          | nested inner =>
            rw [putTake_nested, putTake_nested]
            exact congrArg Take.nested
              (ih ts hts name inner he (fun l hl => ordered l (.nested hts he hl)) _)
        have twice (existing : Entries Take) :
            mergeTakes (mergeTakes existing ts) ts = mergeTakes existing ts := by
          rw [mergeTakes_eq, mergeTakes_eq, Entries.mergeBy_mergeBy sorted.nodup again]
        cases q.take with
        | some existing => exact congrArg some (twice existing)
        | none =>
          have alone := twice []
          rw [mergeTakes_nil sorted] at alone
          exact congrArg some alone
    rw [apply_eq (q.apply p true) p, htake, apply_eq q p]
    simp only [or_or, mergePage_mergePage, mergeMap_mergeMap own.inspect, mergeMap_mergeMap own.group]

theorem modify_modify (f g : Query → Query) (names : List String) (q : Query) :
    modify g names (modify f names q) = modify (fun state => g (f state)) names q := by
  induction names generalizing q with
  | nil => rfl
  | cons name names ih =>
    have entry : (modify f (name :: names) q).under name = modify f names (q.under name) :=
      under_of_nested (by rw [entry?_modify, if_pos rfl])
    have step (h : Query → Query) (r : Query) : modify h (name :: names) r =
        { r with take := some (Entries.insert name (.nested (modify h names (r.under name)))
          (r.take.getD [])) } := rfl
    rw [step g, entry, ih, step f, step]
    simp only [Option.getD_some, Entries.insert_insert]

/-! Levels of what is merged -/

theorem below?_cons_eq_some : q.below? (name :: names) = some state ↔
    ∃ inner, q.entry? name = some (.nested inner) ∧ inner.below? names = some state := by
  simp only [below?_eq_some]
  rw [follow]
  rcases q.entry? name with - | (taken | inner)
  · simp
  · cases names <;> simp
  · simp

/-- Names lead on from an empty state where they lead to none. -/
theorem below?_append_getD (q : Query) (names more : List String) :
    (((q.below? names).getD {}).below? more).getD {} = (q.below? (names ++ more)).getD {} := by
  induction names generalizing q with
  | nil => rfl
  | cons name names ih => rw [← below?_under, ih, below?_under, List.cons_append]

/-- A state on the way is led to first. -/
theorem exists_below?_of_append (h : q.below? (names ++ more) = some state) :
    ∃ inner, q.below? names = some inner ∧ inner.below? more = some state := by
  induction names generalizing q with
  | nil => exact ⟨q, rfl, h⟩
  | cons name names ih =>
    obtain ⟨next, entry, hnext⟩ := below?_cons_eq_some.mp h
    obtain ⟨inner, hinner, hstate⟩ := ih hnext
    exact ⟨inner, below?_cons_eq_some.mpr ⟨next, entry, hinner⟩, hstate⟩

theorem isLevel_of_nested (h : p.entry? name = some (.nested state)) {l : Query} (hl : state.IsLevel l) :
    p.IsLevel l := by
  obtain ⟨ts, hts, hmem⟩ := exists_take_of_entry? h
  exact .nested hts hmem hl

theorem isLevel_of_below? (h : p.below? names = some patch) {l : Query} (hl : patch.IsLevel l) :
    p.IsLevel l := by
  induction names generalizing p with
  | nil =>
    cases h
    exact hl
  | cons name names ih =>
    obtain ⟨inner, entry, hpatch⟩ := below?_cons_eq_some.mp h
    exact isLevel_of_nested entry (ih hpatch)

section ordered
variable (ordered : ∀ l, p.IsLevel l → l.Ordered)
include ordered

theorem entry?_apply_of_ordered (q : Query) (name : String) :
    Query.entry? (q.apply p true) name = mergeEntry (q.entry? name) (p.entry? name) :=
  entry?_apply_of_sorted (ordered p (.self p)).take q name

/-- A state that a patch has at a level is merged into what is at the level. -/
theorem below?_apply (h : p.below? names = some patch) (q : Query) :
    (q.apply p true).below? names = some (((q.below? names).getD {}).apply patch true) := by
  induction names generalizing p q with
  | nil =>
    cases h
    rfl
  | cons name names ih =>
    obtain ⟨inner, entry, hpatch⟩ := below?_cons_eq_some.mp h
    have merged : Query.entry? (q.apply p true) name = some (.nested ((q.under name).apply inner true)) := by
      rw [entry?_apply_of_ordered ordered, entry]
      exact congrArg some (putTake_nested (q.entry? name) inner)
    rw [← below?_under (q := q)]
    exact below?_cons_eq_some.mpr ⟨_, merged,
      ih (fun l hl => ordered l (isLevel_of_nested entry hl)) hpatch (q.under name)⟩

/-- A nested state that a patch has nothing for stays as it is. -/
theorem below?_apply_of_none (h : q.below? names = some state) (none : p.below? names = none) :
    (q.apply p true).below? names = some state := by
  induction names generalizing p q with
  | nil => cases none
  | cons name names ih =>
    obtain ⟨inner, entry, hstate⟩ := below?_cons_eq_some.mp h
    have merged := entry?_apply_of_ordered ordered q name
    rw [entry] at merged
    rw [below?_cons_eq_some]
    rcases hp : p.entry? name with - | (taken | next)
    · rw [hp] at merged
      exact ⟨inner, merged, hstate⟩
    · rw [hp] at merged
      exact ⟨inner, merged, hstate⟩
    · rw [hp] at merged
      have none' : next.below? names = Option.none := by
        cases hnext : next.below? names with
        | none => rfl
        | some state => cases none.symm.trans (below?_cons_eq_some.mpr ⟨next, hp, hnext⟩)
      exact ⟨_, merged, ih (fun l hl => ordered l (isLevel_of_nested hp hl)) hstate none'⟩

theorem isSome_entry?_apply (h : (q.entry? name).isSome) : (Query.entry? (q.apply p true) name).isSome := by
  rw [entry?_apply_of_ordered ordered]
  cases p.entry? name with
  | none => exact h
  | some t => rfl

end ordered

/-! Maps of states -/

/-- A map that a state may have. -/
structure IsMap (feature : Query → Option (Entries Value)) : Prop where
  empty : feature {} = none
  apply : ∀ q p : Query, feature (q.apply p true) = mergeMap true (feature q) (feature p)
  below : ∀ (q : Query) ts, feature { q with take := ts } = feature q
  canonical : ∀ q : Query, q.Ordered → ∀ es, feature q = some es → (Value.obj es).Canonical

theorem isMap {feature : Query → Option (Entries Value)} (h : feature ∈ [group, inspect]) :
    IsMap feature := by
  rcases List.mem_cons.mp h with rfl | h
  · exact ⟨rfl, fun q p => by rw [apply_eq], fun q ts => rfl, fun q h => h.group⟩
  · obtain rfl := List.mem_singleton.mp h
    exact ⟨rfl, fun q p => by rw [apply_eq], fun q ts => rfl, fun q h => h.inspect⟩

theorem IsMap.getD {feature : Query → Option (Entries Value)} (h : IsMap feature) (q? : Option Query) :
    feature (q?.getD {}) = q?.bind feature := by
  cases q? with
  | none => exact h.empty
  | some q => rfl

/-! Merging at a level -/

/-- What a patch that is put at one level has for another: where the rest of the way leads in the patch,
if the way to the other level passes the first. -/
def reach? (p : Query) (level other : Level) : Option Query :=
  (other.names.dropPrefix? level.names).bind p.below?

theorem reach?_eq_some {level other : Level} : p.reach? level other = some patch ↔
    ∃ more, other.names = level.names ++ more ∧ p.below? more = some patch := by
  rw [reach?, Option.bind_eq_some_iff]
  simp only [List.dropPrefix?_eq_some_iff, beq_iff_eq]
  constructor
  · rintro ⟨more, ⟨-, hother, rfl⟩, hpatch⟩
    exact ⟨more, hother, hpatch⟩
  · rintro ⟨more, hother, hpatch⟩
    exact ⟨more, ⟨_, hother, rfl⟩, hpatch⟩

section update
variable (ordered : ∀ l, p.IsLevel l → l.Ordered) {level other : Level}
include ordered

theorem ordered_of_reach? (h : p.reach? level other = some patch) : ∀ l, patch.IsLevel l → l.Ordered := by
  obtain ⟨more, -, hpatch⟩ := reach?_eq_some.mp h
  exact fun l hl => ordered l (isLevel_of_below? hpatch hl)

/-- Where a patch has a state, it is merged into what was there. -/
theorem stateAt?_update (h : p.reach? level other = some patch) (q : Query) :
    (q.update p level true).stateAt? other =
      some (((q.stateAt? other).getD {}).apply patch true) := by
  obtain ⟨more, hother, hpatch⟩ := reach?_eq_some.mp h
  rw [stateAt?_eq, stateAt?_eq, hother, update]
  have there := follow_modify (fun state => state.apply p true) level.names q
  rw [below?, follow_append more there, ← below?, below?_apply ordered hpatch, below?_append_getD]

/-- A state that a patch has nothing for keeps its features and its names. -/
theorem stateAt?_update_of_none (h : q.stateAt? other = some state) (none : p.reach? level other = none) :
    ∃ ts, (q.update p level true).stateAt? other = some { state with take := ts } ∧
      ∀ name, (state.entry? name).isSome → (Query.entry? { state with take := ts } name).isSome := by
  rw [stateAt?_eq] at h ⊢
  by_cases through : level.names <+: other.names
  · obtain ⟨more, hother⟩ := through
    rw [← hother] at h ⊢
    obtain ⟨inner, hinner, hstate⟩ := exists_below?_of_append h
    have none' : p.below? more = Option.none := by
      cases hmore : p.below? more with
      | none => rfl
      | some patch => cases none.symm.trans (reach?_eq_some.mpr ⟨more, hother.symm, hmore⟩)
    have there := follow_modify (fun state => state.apply p true) level.names q
    rw [hinner, Option.getD_some] at there
    refine ⟨state.take, ?_, fun name hname => hname⟩
    rw [update, below?, follow_append more there, ← below?, below?_apply_of_none ordered hstate none']
    cases state
    rfl
  by_cases above : other.names <+: level.names
  · obtain ⟨rest, hlevel⟩ := above
    have filled : rest ≠ [] := by
      rintro rfl
      exact through ⟨[], by rw [List.append_nil] at hlevel ⊢; exact hlevel.symm⟩
    obtain ⟨name, rest, rfl⟩ := List.exists_cons_of_ne_nil filled
    have changed := follow_modify_append (f := fun state => state.apply p true) (name :: rest)
      (below?_eq_some.mp h)
    rw [hlevel] at changed
    refine ⟨_, below?_eq_some.mpr changed, fun first hfirst => ?_⟩
    change (Query.entry? (modify (fun state => state.apply p true) (name :: rest) state) first).isSome
    rw [entry?_modify]
    split
    · rfl
    · exact hfirst
  · refine ⟨state.take, ?_, fun name hname => hname⟩
    rw [update, below?, follow_modify_apart through above, ← below?, h]
    cases state
    rfl

end update

/-- To merge a patch in at a level again changes nothing. What was a state anywhere is one still, with
the names it took. Keys of its maps lead to something as they did, unless above their end the patch has a
list, a null, a number or a text; and what the patch has that is no map is there, but for a truth value
where a map was, which stays. -/
theorem update_merge (q p : Query) (level : Level) (ordered : ∀ l, p.IsLevel l → l.Ordered) :
    (q.update p level true).update p level true = q.update p level true ∧
      (∀ other state, q.stateAt? other = some state →
        ∃ merged, (q.update p level true).stateAt? other = some merged ∧
          (∀ name, (state.entry? name).isSome → (merged.entry? name).isSome) ∧
          ∀ feature ∈ [group, inspect], ∀ path, (mapAlong? (feature state) path).isSome →
            ((mapAlong? (feature merged) path).isSome ↔
              ¬Severs ((p.reach? level other).bind feature) path)) ∧
      ∀ other patch, p.reach? level other = some patch →
        ∃ merged, (q.update p level true).stateAt? other = some merged ∧
          ∀ feature ∈ [group, inspect], ∀ path v, mapAlong? (feature patch) path = some v →
            v.obj? = none →
            let old := (mapAlong? ((q.stateAt? other).bind feature) path).getD .null
            mapAlong? (feature merged) path =
              some (if v.bool?.isSome ∧ old.obj?.isSome then old else v) := by
  refine ⟨?_, fun other state hstate => ?_, fun other patch hpatch => ?_⟩
  · rw [update, update, modify_modify]
    exact congrArg (modify · level.names q) (funext (apply_apply ordered))
  · cases hreach : p.reach? level other with
    | none =>
      obtain ⟨ts, hmerged, hnames⟩ := stateAt?_update_of_none ordered hstate hreach
      refine ⟨_, hmerged, hnames, fun feature hfeature path hpath => ?_⟩
      rw [(isMap hfeature).below]
      exact iff_of_true hpath not_severs_none
    | some patch =>
      have ordered' := ordered_of_reach? ordered hreach
      refine ⟨_, stateAt?_update ordered hreach q, fun name hname => ?_,
        fun feature hfeature path hpath => ?_⟩
      · rw [hstate]
        exact isSome_entry?_apply ordered' hname
      · have map := isMap hfeature
        rw [hstate, Option.getD_some, map.apply]
        exact isSome_mapAlong?_mergeMap (map.canonical patch (ordered' patch (.self patch))) hpath
  · have ordered' := ordered_of_reach? ordered hpatch
    refine ⟨_, stateAt?_update ordered hpatch q, fun feature hfeature path v hv leaf => ?_⟩
    have map := isMap hfeature
    rw [map.apply, map.getD,
      mapAlong?_mergeMap (map.canonical patch (ordered' patch (.self patch))) hv, Value.onto_leaf leaf]

/-- Posts grouped by day, with their tags. -/
def grouped : Query where
  take := some [("posts", .nested {
    group := some [("by", .obj [("day", .str "made")]), ("count", .bool true)]
    take := some [("tags", .nested {})] })]

/-- A patch that counts the marks of what it groups and takes its tags. -/
def marking : Query where
  group := some [("by", .bool true), ("count", .str "marks")]
  take := some [("tags", .flag true)]

theorem ordered_marking {l : Query} (h : marking.IsLevel l) : l.Ordered := by
  cases h with
  | nested take mem level =>
    cases take
    simp at mem
  | self =>
    refine ⟨?_, ?_, ?_, ?_⟩
    · rintro _ ⟨⟩
    · rintro _ ⟨⟩
      simp [Entries.Sorted]
    · rintro _ ⟨⟩
    · rintro _ ⟨⟩
      have names : "by" < "count" := by decide
      exact Value.canonical_obj_iff.mpr ⟨by simpa [Entries.Sorted] using names, by simp [Value.Canonical]⟩

/-- The marks are counted now; the days stay, as do the tags that were a state. -/
theorem update_merge_marking :
    (∀ l, marking.IsLevel l → l.Ordered) ∧
      let merged := grouped.update marking ["posts"] true
      merged.update marking ["posts"] true = merged ∧
      (merged.stateAt? ["posts", "tags"]).isSome ∧
      ∃ posts, merged.stateAt? ["posts"] = some posts ∧ (posts.entry? "tags").isSome ∧
        (mapAlong? posts.group ["by", "day"]).isSome ∧
        mapAlong? posts.group ["by"] = some (.obj [("day", .str "made")]) ∧
        mapAlong? posts.group ["count"] = some (.str "marks") := by
  have ordered (l : Query) (hl : marking.IsLevel l) : l.Ordered := ordered_marking hl
  obtain ⟨again, stays, found⟩ := update_merge grouped marking ["posts"] ordered
  refine ⟨ordered, again, ?_, ?_⟩
  · obtain ⟨tags, htags, -⟩ := stays ["posts", "tags"] _ rfl
    rw [htags]
    rfl
  · obtain ⟨posts, hposts, hnames, hkept⟩ := stays ["posts"] _ rfl
    obtain ⟨posts', hposts', hleaves⟩ := found ["posts"] marking rfl
    obtain rfl := Option.some_inj.mp (hposts.symm.trans hposts')
    have group : Query.group ∈ [Query.group, inspect] := .head _
    have unsevered : ¬Severs marking.group ["by", "day"] := by
      rintro ⟨above, rest, v, hpath, filled, hv, replaces⟩
      obtain - | ⟨key, - | ⟨next, above⟩⟩ := above
      · cases hv
        cases replaces.1
      · cases hpath
        cases hv
        cases replaces.2
      · simp only [List.cons_append, List.cons.injEq, List.nil_eq, List.append_eq_nil_iff] at hpath
        exact filled hpath.2.2.2
    exact ⟨posts, hposts, hnames "tags" rfl, (hkept _ group ["by", "day"] rfl).mpr unsevered,
      hleaves _ group ["by"] _ rfl rfl, hleaves _ group ["count"] _ rfl rfl⟩

end Query
end RecordGraph
