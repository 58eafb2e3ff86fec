import RecordGraph.Proofs.Query.Clauses
import RecordGraph.Proofs.Query.Edits
import RecordGraph.Proofs.Query.Settings

/-!
States taken apart into their levels. Every feature of a level is a list of settings, each with the
patch it makes, and the patches put at their levels make the state again.
-/
namespace RecordGraph
open Value (leafMap)

namespace Query

mutual
/-- The levels of a state, each with the names that lead to it and after the levels below it. -/
def levels : Query → List (List String × Query)
  | ⟨space, resource, record, field, action, inspect, take, filter, sort, page, group⟩ =>
    (match take with
      | some ts => levelsBelow ts
      | none => []) ++
      [([], ⟨space, resource, record, field, action, inspect, take, filter, sort, page, group⟩)]

def levelsBelow : List (String × Take) → List (List String × Query)
  | [] => []
  | (name, t) :: ts => levelsAt name t ++ levelsBelow ts

def levelsAt (name : String) : Take → List (List String × Query)
  | .flag _ => []
  | .nested state => (levels state).map fun l => (name :: l.1, l.2)
end

theorem levelsBelow_eq (ts : List (String × Take)) :
    levelsBelow ts = ts.flatMap fun e => levelsAt e.1 e.2 := by
  induction ts with
  | nil => rfl
  | cons e ts ih => rw [levelsBelow, ih, List.flatMap_cons]

theorem levels_eq (q : Query) :
    q.levels = ((q.take.getD []).flatMap fun e => levelsAt e.1 e.2) ++ [([], q)] := by
  obtain ⟨space, resource, record, field, action, inspect, take, filter, sort, page, group⟩ := q
  cases take with
  | none => rfl
  | some ts => rw [levels, levelsBelow_eq]; rfl

/-- What a level has of its own, at each of the levels. -/
def atLevels {α : Type} (own : Query → List α) (q : Query) : List (List String × α) :=
  q.levels.flatMap fun l => (own l.2).map (l.1, ·)

/-! The settings of a level -/

/-- The names that are taken or left out as they are. -/
def flags (q : Query) : List (String × Take) :=
  (q.take.getD []).filter fun e => match e.2 with
    | .flag _ => true
    | .nested _ => false

def flagText : String × Take → String
  | (name, .flag false) => "-" ++ name
  | (name, _) => name

def takeSettings (q : Query) : List (Setting × Query) :=
  if q.flags.isEmpty then []
  else [(⟨.take, [], [Text.join "," (q.flags.map flagText)]⟩, { take := some q.flags })]

def sortSettings (q : Query) : List (Setting × Query) :=
  q.sort.toList.map fun keys => (⟨.sort, [], [Text.join "," keys]⟩, { sort := some keys })

def pageSettings (q : Query) : List (Setting × Query) :=
  (q.page.bind Page.size).toList.map
      (fun n => (⟨.page, ["size"], [n.toNat.repr]⟩, { page := some { size := some n } })) ++
    (q.page.bind Page.after).toList.map
      fun s => (⟨.page, ["after"], [s]⟩, { page := some { after := some s } })

def groupSettings (q : Query) : List (Setting × Query) :=
  (q.group.toList.flatMap fun es => (Value.obj es).leaves).map fun l =>
    (⟨.group, l.1, l.2.texts⟩, { group := some (leafMap l) })

/-- The settings of a level that are applied one by one, with the patches they make. -/
def settings (q : Query) : List (Setting × Query) :=
  q.takeSettings ++ q.sortSettings ++ q.pageSettings ++ q.groupSettings

/-- The settings that make a predicate together. -/
def filterSettings (q : Query) : List Setting :=
  q.filter.toList.flatMap fun v => (filterParams v).map fun p => ⟨.filter, p.1, p.2⟩

def settingPatches (q : Query) : List Query := q.settings.map Prod.snd

def filterPatches (q : Query) : List Query := q.filter.toList.map fun v => { filter := some v }

/-- The patches of all levels, the predicates last. -/
def edits (q : Query) : List Edit := atLevels settingPatches q ++ atLevels filterPatches q

/-! Edits of the levels -/

theorem here_levelsAt (own : Query → List Query) (name : String) (t : Take) :
    Edit.here ((levelsAt name t).flatMap fun l => (own l.2).map (l.1, ·)) = [] := by
  rw [Edit.here, List.filterMap_eq_nil_iff]
  intro e he
  cases t with
  | flag taken => simp [levelsAt] at he
  | nested state =>
    simp only [levelsAt, List.flatMap_map, List.mem_flatMap, List.mem_map] at he
    obtain ⟨l, -, p, -, rfl⟩ := he
    rfl

theorem here_atLevels (own : Query → List Query) (q : Query) : Edit.here (atLevels own q) = own q := by
  have hbelow (ts : List (String × Take)) : Edit.here
      ((ts.flatMap fun e => levelsAt e.1 e.2).flatMap fun l => (own l.2).map (l.1, ·)) = [] := by
    induction ts with
    | nil => rfl
    | cons e ts ih =>
      rw [List.flatMap_cons, List.flatMap_append, Edit.here_append, here_levelsAt, ih]
      rfl
  rw [atLevels, levels_eq, List.flatMap_append, Edit.here_append, hbelow, List.flatMap_singleton,
    List.nil_append, Edit.here, List.filterMap_map]
  exact List.filterMap_some

theorem below_levelsAt (own : Query → List Query) (name first : String) (t : Take) :
    Edit.below name ((levelsAt first t).flatMap fun l => (own l.2).map (l.1, ·)) =
      match t with
      | .flag _ => []
      | .nested state => if first = name then atLevels own state else [] := by
  cases t with
  | flag taken => rfl
  | nested state =>
    simp only [levelsAt, List.flatMap_map, Edit.below, List.filterMap_flatMap, List.filterMap_map,
      Function.comp_def]
    by_cases hname : first = name
    · simp only [hname, if_true, atLevels]
      congr 1
      funext l
      exact congrFun List.filterMap_eq_map' _
    · simp [hname]

/-- Edits below a name are those of the state there. -/
theorem below_atLevels (own : Query → List Query) {q : Query}
    (nodup : (Entries.keys (q.take.getD [])).Nodup) (name : String) :
    Edit.below name (atLevels own q) = match q.entry? name with
      | some (.nested state) => atLevels own state
      | _ => [] := by
  have hbelow {ts : Entries Take} (nodup : ts.keys.Nodup) : Edit.below name
      ((ts.flatMap fun e => levelsAt e.1 e.2).flatMap fun l => (own l.2).map (l.1, ·)) =
      match ts.get? name with
        | some (.nested state) => atLevels own state
        | _ => [] := by
    induction ts with
    | nil => rfl
    | cons e ts ih =>
      obtain ⟨first, t⟩ := e
      rw [Entries.keys, List.map_cons, List.nodup_cons] at nodup
      rw [List.flatMap_cons, List.flatMap_append, Edit.below_append, below_levelsAt, ih nodup.2,
        Entries.get?_cons]
      by_cases hname : name = first
      · subst hname
        rw [if_pos rfl, Entries.get?_eq_none nodup.1]
        cases t <;> simp
      · rw [if_neg hname]
        cases t <;> simp [Ne.symm hname]
  have hroot : Edit.below name ([([], q)].flatMap fun l => (own l.2).map (l.1, ·)) = [] := by
    simp [Edit.below, List.filterMap_map]
  rw [atLevels, levels_eq, List.flatMap_append, Edit.below_append, hbelow nodup, hroot, List.append_nil]
  rfl

/-! Levels that parameters can write -/

/-- A sort key without its signs. -/
def unsigned (key : String) : String := String.ofList (key.toList.dropWhile (· == '-'))

/-- A level whose features are given as parameters can write them. -/
structure IsWritten (q : Query) : Prop where
  take : ∀ ts, q.take = some ts → ts ≠ [] ∧ Entries.Sorted ts ∧ ∀ e ∈ ts, isKeySafe e.1
  nested : ∀ ts, q.take = some ts → ∀ name state, (name, Take.nested state) ∈ ts →
    state.rootFeatures = {} ∧ state.leveledFeatures ≠ {}
  sort : ∀ keys, q.sort = some keys → keys ≠ [] ∧ ∀ key ∈ keys, isKeySafe (unsigned key)
  page : ∀ p, q.page = some p → p ≠ {} ∧ p.size ≠ some 0 ∧ p.after ≠ some ""
  group : ∀ es, q.group = some es → (Value.obj es).IsBranch
  filter : ∀ v, q.filter = some v → v.IsFilter

theorem IsWritten.tidy {q : Query} (h : q.IsWritten) : q.Tidy :=
  fun ts hts => ⟨(h.take ts hts).1, (h.take ts hts).2.1⟩

theorem Tidy.sorted {q : Query} (h : q.Tidy) : Entries.Sorted (q.take.getD []) := by
  cases hts : q.take with
  | none => exact List.Pairwise.nil
  | some ts => exact (h ts hts).2

/-- The patches of a level, the predicate last. -/
def patches (q : Query) : List Query := q.settingPatches ++ q.filterPatches

theorem here_edits (q : Query) : Edit.here q.edits = q.patches := by
  rw [edits, Edit.here_append, here_atLevels, here_atLevels, patches]

theorem below_edits {q : Query} (h : q.Tidy) (name : String) :
    Edit.below name q.edits = match q.entry? name with
      | some (.nested state) => state.edits
      | _ => [] := by
  rw [edits, Edit.below_append, below_atLevels _ h.sorted.nodup, below_atLevels _ h.sorted.nodup]
  split <;> rfl

section patches
variable {q p : Query}

/-! The patches of each feature, which have no other -/

theorem mem_takePatches (h : p ∈ q.takeSettings.map Prod.snd) : p = { take := some q.flags } := by
  unfold takeSettings at h
  split at h
  · cases h
  · simpa using h

theorem mem_sortPatches (h : p ∈ q.sortSettings.map Prod.snd) : ∃ keys, p = { sort := some keys } := by
  obtain ⟨s, hs, rfl⟩ := List.mem_map.mp h
  obtain ⟨keys, -, rfl⟩ := List.mem_map.mp hs
  exact ⟨keys, rfl⟩

theorem mem_pagePatches (h : p ∈ q.pageSettings.map Prod.snd) : ∃ page, p = { page := some page } := by
  obtain ⟨s, hs, rfl⟩ := List.mem_map.mp h
  rcases List.mem_append.mp hs with hs | hs
  · obtain ⟨n, -, rfl⟩ := List.mem_map.mp hs
    exact ⟨_, rfl⟩
  · obtain ⟨after, -, rfl⟩ := List.mem_map.mp hs
    exact ⟨_, rfl⟩

theorem mem_groupPatches (h : p ∈ q.groupSettings.map Prod.snd) : ∃ es, p = { group := some es } := by
  obtain ⟨s, hs, rfl⟩ := List.mem_map.mp h
  obtain ⟨l, -, rfl⟩ := List.mem_map.mp hs
  exact ⟨_, rfl⟩

theorem mem_filterPatches (h : p ∈ q.filterPatches) : ∃ v, p = { filter := some v } := by
  obtain ⟨v, -, rfl⟩ := List.mem_map.mp h
  exact ⟨v, rfl⟩

theorem patches_eq (q : Query) : q.patches = q.takeSettings.map Prod.snd ++
    (q.sortSettings.map Prod.snd ++ (q.pageSettings.map Prod.snd ++
      (q.groupSettings.map Prod.snd ++ q.filterPatches))) := by
  simp [patches, settingPatches, settings]

theorem foldl_leaves {α : Type} {patch : α → Query → α} {ps : List Query}
    (h : ∀ p ∈ ps, ∀ x, patch x p = x) (x : α) : ps.foldl patch x = x := by
  induction ps with
  | nil => rfl
  | cons p ps ih =>
    rw [List.forall_mem_cons] at h
    rw [List.foldl_cons, h.1, ih h.2]

/-- A feature is made by the patches of its own settings. -/
theorem foldl_patches {α : Type} {patch : α → Query → α} (x : α)
    {take : α} (htake : (q.takeSettings.map Prod.snd).foldl patch x = take)
    {sort : α} (hsort : (q.sortSettings.map Prod.snd).foldl patch take = sort)
    {page : α} (hpage : (q.pageSettings.map Prod.snd).foldl patch sort = page)
    {group : α} (hgroup : (q.groupSettings.map Prod.snd).foldl patch page = group) :
    q.patches.foldl patch x = q.filterPatches.foldl patch group := by
  rw [patches_eq, List.foldl_append, htake, List.foldl_append, hsort, List.foldl_append, hpage,
    List.foldl_append, hgroup]

theorem leaves_take {α : Type} {patch : α → Query → α}
    (h : ∀ x ts, patch x { take := some ts } = x) (x : α) :
    (q.takeSettings.map Prod.snd).foldl patch x = x :=
  foldl_leaves (fun _ hp x => mem_takePatches hp ▸ h x _) x

theorem leaves_sort {α : Type} {patch : α → Query → α}
    (h : ∀ x keys, patch x { sort := some keys } = x) (x : α) :
    (q.sortSettings.map Prod.snd).foldl patch x = x := by
  refine foldl_leaves (fun p hp x => ?_) x
  obtain ⟨keys, rfl⟩ := mem_sortPatches hp
  exact h x keys

theorem leaves_page {α : Type} {patch : α → Query → α}
    (h : ∀ x page, patch x { page := some page } = x) (x : α) :
    (q.pageSettings.map Prod.snd).foldl patch x = x := by
  refine foldl_leaves (fun p hp x => ?_) x
  obtain ⟨page, rfl⟩ := mem_pagePatches hp
  exact h x page

theorem leaves_group {α : Type} {patch : α → Query → α}
    (h : ∀ x es, patch x { group := some es } = x) (x : α) :
    (q.groupSettings.map Prod.snd).foldl patch x = x := by
  refine foldl_leaves (fun p hp x => ?_) x
  obtain ⟨es, rfl⟩ := mem_groupPatches hp
  exact h x es

theorem leaves_filter {α : Type} {patch : α → Query → α}
    (h : ∀ x v, patch x { filter := some v } = x) (x : α) : q.filterPatches.foldl patch x = x := by
  refine foldl_leaves (fun p hp x => ?_) x
  obtain ⟨v, rfl⟩ := mem_filterPatches hp
  exact h x v

/-! What the patches of a level make of each feature -/

theorem foldl_sort (q : Query) : q.patches.foldl (fun sort p => p.sort.or sort) none = q.sort := by
  have hsort : (q.sortSettings.map Prod.snd).foldl (fun sort p => p.sort.or sort) none = q.sort := by
    rw [sortSettings]
    cases q.sort <;> rfl
  rw [foldl_patches none (leaves_take (fun _ _ => rfl) _) hsort (leaves_page (fun _ _ => rfl) _)
    (leaves_group (fun _ _ => rfl) _), leaves_filter (fun _ _ => rfl)]

theorem foldl_filter (q : Query) :
    q.patches.foldl (fun filter p => p.filter.or filter) none = q.filter := by
  rw [foldl_patches none (leaves_take (fun _ _ => rfl) _) (leaves_sort (fun _ _ => rfl) _)
    (leaves_page (fun _ _ => rfl) _) (leaves_group (fun _ _ => rfl) _), filterPatches]
  cases q.filter <;> rfl

theorem foldl_page (h : q.IsWritten) :
    q.patches.foldl (fun page p => mergePage true page p.page) none = q.page := by
  have hpage : (q.pageSettings.map Prod.snd).foldl (fun page p => mergePage true page p.page) none =
      q.page := by
    rw [pageSettings]
    cases hp : q.page with
    | none => rfl
    | some page =>
      obtain ⟨size, after⟩ := page
      have hfilled := (h.page _ hp).1
      cases size <;> cases after <;> first | rfl | exact absurd rfl hfilled
  rw [foldl_patches none (leaves_take (fun _ _ => rfl) _) (leaves_sort (fun _ _ => rfl) _) hpage
    (leaves_group (fun _ _ => rfl) _), leaves_filter (fun _ _ => rfl)]

theorem foldl_group (h : q.IsWritten) :
    q.patches.foldl (fun group p => mergeMap true group p.group) none = q.group := by
  have hgroup : (q.groupSettings.map Prod.snd).foldl (fun group p => mergeMap true group p.group) none =
      q.group := by
    rw [groupSettings]
    cases hg : q.group with
    | none => rfl
    | some es =>
      have hmerge := (h.group es hg).mergeMap_leaves
      simpa [List.foldl_map] using hmerge
  rw [foldl_patches none (leaves_take (fun _ _ => rfl) _) (leaves_sort (fun _ _ => rfl) _)
    (leaves_page (fun _ _ => rfl) _) hgroup, leaves_filter (fun _ _ => rfl)]

theorem get?_flags (h : q.Tidy) (name : String) : Entries.get? q.flags name =
    match q.entry? name with
    | some (.flag taken) => some (.flag taken)
    | _ => none := by
  have hflags {ts : Entries Take} (nodup : ts.keys.Nodup) : Entries.get?
      (ts.filter fun e => match e.2 with
        | .flag _ => true
        | .nested _ => false) name =
      match ts.get? name with
        | some (.flag taken) => some (.flag taken)
        | _ => none := by
    induction ts with
    | nil => rfl
    | cons e ts ih =>
      obtain ⟨first, t⟩ := e
      rw [Entries.keys, List.map_cons, List.nodup_cons] at nodup
      have hrest := ih nodup.2
      rw [Entries.get?_cons]
      by_cases hname : name = first
      · subst hname
        rw [Entries.get?_eq_none nodup.1] at hrest
        cases t with
        | flag taken => rw [List.filter_cons_of_pos rfl, Entries.get?_cons, if_pos rfl, if_pos rfl]
        | nested state => rw [List.filter_cons_of_neg (by simp), hrest, if_pos rfl]
      · rw [if_neg hname]
        cases t with
        | flag taken => rw [List.filter_cons_of_pos rfl, Entries.get?_cons, if_neg hname, hrest]
        | nested state => rw [List.filter_cons_of_neg (by simp), hrest]
  exact hflags h.sorted.nodup

theorem foldl_entry (h : q.Tidy) (name : String) :
    q.patches.foldl (fun entry p => mergeEntry entry (p.entry? name)) none =
      match q.entry? name with
      | some (.flag taken) => some (.flag taken)
      | _ => none := by
  have htake : (q.takeSettings.map Prod.snd).foldl (fun entry p => mergeEntry entry (p.entry? name)) none =
      Entries.get? q.flags name := by
    rw [takeSettings]
    split
    · rename_i hnil
      rw [List.isEmpty_iff.mp hnil]
      rfl
    · change mergeEntry none (Entries.get? q.flags name) = _
      cases Entries.get? q.flags name <;> rfl
  rw [foldl_patches none htake (leaves_sort (fun _ _ => rfl) _) (leaves_page (fun _ _ => rfl) _)
    (leaves_group (fun _ _ => rfl) _), leaves_filter (fun _ _ => rfl), get?_flags h]

/-- A patch of a level has one of its features. -/
theorem mem_patches (h : p ∈ q.patches) : (q.flags ≠ [] ∧ p = { take := some q.flags }) ∨
    p.take = none ∧ p.rootFeatures = {} := by
  simp only [patches_eq, List.mem_append] at h
  rcases h with h | h | h | h | h
  · refine .inl ⟨fun hnil => ?_, mem_takePatches h⟩
    simp [takeSettings, hnil] at h
  · obtain ⟨keys, rfl⟩ := mem_sortPatches h
    exact .inr ⟨rfl, rfl⟩
  · obtain ⟨page, rfl⟩ := mem_pagePatches h
    exact .inr ⟨rfl, rfl⟩
  · obtain ⟨es, rfl⟩ := mem_groupPatches h
    exact .inr ⟨rfl, rfl⟩
  · obtain ⟨v, rfl⟩ := mem_filterPatches h
    exact .inr ⟨rfl, rfl⟩

theorem rootFeatures_of_mem_patches (h : p ∈ q.patches) : p.rootFeatures = {} := by
  rcases mem_patches h with ⟨-, rfl⟩ | ⟨-, h⟩
  · rfl
  · exact h

theorem tidy_of_mem_patches (hq : q.Tidy) (h : p ∈ q.patches) : p.Tidy := by
  rcases mem_patches h with ⟨hflags, rfl⟩ | ⟨hnone, -⟩
  · rintro ts ⟨⟩
    exact ⟨hflags, hq.sorted.sublist List.filter_sublist⟩
  · intro ts hts
    rw [hnone] at hts
    cases hts

/-- A patch of a level has no entry at the name of a nested state. -/
theorem entry?_of_mem_patches (hq : q.Tidy) {name : String} {state : Query}
    (hname : q.entry? name = some (.nested state)) (h : p ∈ q.patches) : p.entry? name = none := by
  rcases mem_patches h with ⟨-, rfl⟩ | ⟨hnone, -⟩
  · have hflags := get?_flags hq name
    rw [hname] at hflags
    exact hflags
  · rw [ entry?, hnone]
    rfl

end patches

/-! Levels and edits -/

/-- A level of a state is the state itself or a level of a nested state. -/
theorem mem_levels {q l : Query} {names : List String} : (names, l) ∈ q.levels ↔
    names = [] ∧ l = q ∨ ∃ ts name state rest, q.take = some ts ∧ (name, Take.nested state) ∈ ts ∧
      (rest, l) ∈ state.levels ∧ names = name :: rest := by
  rw [levels_eq, List.mem_append, List.mem_flatMap, List.mem_singleton, Prod.mk.injEq, or_comm]
  refine or_congr Iff.rfl ?_
  constructor
  · rintro ⟨⟨name, t⟩, he, h⟩
    cases t with
    | flag taken => cases h
    | nested state =>
      obtain ⟨⟨rest, l'⟩, hl, heq⟩ := List.mem_map.mp h
      cases heq
      cases hts : q.take with
      | none => simp [hts] at he
      | some ts => exact ⟨ts, name, state, rest, rfl, by simpa [hts] using he, hl, rfl⟩
  · rintro ⟨ts, name, state, rest, hts, he, hl, rfl⟩
    exact ⟨(name, .nested state), by simpa [hts] using he, List.mem_map_of_mem hl⟩

theorem isLevel_of_mem_levels {q l : Query} {names : List String} (h : (names, l) ∈ q.levels) :
    q.IsLevel l := by
  induction q using inductionOn generalizing names with
  | step q ih =>
    rcases mem_levels.mp h with ⟨rfl, rfl⟩ | ⟨ts, name, state, rest, hts, he, hl, rfl⟩
    · exact .self l
    · exact .nested hts he (ih ts hts name state he hl)

theorem head?_of_mem_levelsAt {name : String} {t : Take} {names : List String}
    (h : names ∈ (levelsAt name t).map Prod.fst) : names.head? = some name := by
  cases t with
  | flag taken => cases h
  | nested state =>
    simp only [levelsAt, List.map_map, List.mem_map, Function.comp_apply] at h
    obtain ⟨l, -, rfl⟩ := h
    rfl

/-- Different levels are led to by different names. -/
theorem nodup_levels {q : Query} (h : ∀ l, q.IsLevel l → l.Tidy) : (q.levels.map Prod.fst).Nodup := by
  induction q using inductionOn with
  | step q ih =>
    rw [levels_eq, List.map_append, List.nodup_append, List.map_flatMap]
    refine ⟨List.nodup_flatMap.mpr ⟨?_, ?_⟩, by simp, ?_⟩
    · rintro ⟨name, t⟩ he
      cases t with
      | flag taken => exact .nil
      | nested state =>
        obtain ⟨ts, hts, hmem⟩ : ∃ ts, q.take = some ts ∧ (name, Take.nested state) ∈ ts := by
          cases hts : q.take with
          | none => simp [hts] at he
          | some ts => exact ⟨ts, rfl, by simpa [hts] using he⟩
        have hstate := ih ts hts name state hmem fun l hl => h l (.nested hts hmem hl)
        rw [levelsAt, List.map_map]
        rw [List.Nodup, List.pairwise_map] at hstate ⊢
        refine hstate.imp fun hne heq => hne ?_
        simpa using heq
    · refine (h q (.self q)).sorted.imp fun hlt names hnames hnames' => ?_
      have := (head?_of_mem_levelsAt hnames).symm.trans (head?_of_mem_levelsAt hnames')
      exact hlt.ne (Option.some.inj this)
    · intro names hnames root hroot heq
      obtain ⟨e, -, hnames⟩ := List.mem_flatMap.mp hnames
      rw [heq] at hnames
      rw [List.mem_singleton.mp hroot] at hnames
      cases head?_of_mem_levelsAt hnames

theorem mem_atLevels {α : Type} {own : Query → List α} {q : Query} {e : List String × α}
    (h : e ∈ atLevels own q) : ∃ l, q.IsLevel l ∧ (e.1, l) ∈ q.levels ∧ e.2 ∈ own l := by
  obtain ⟨⟨names, l⟩, hl, h⟩ := List.mem_flatMap.mp h
  obtain ⟨x, hx, rfl⟩ := List.mem_map.mp h
  exact ⟨l, isLevel_of_mem_levels hl, hl, hx⟩

theorem mem_edits {q : Query} {e : Edit} (h : e ∈ q.edits) : ∃ l, q.IsLevel l ∧ e.2 ∈ l.patches := by
  rcases List.mem_append.mp h with h | h
  · obtain ⟨l, hl, -, h⟩ := mem_atLevels h
    exact ⟨l, hl, List.mem_append_left _ h⟩
  · obtain ⟨l, hl, -, h⟩ := mem_atLevels h
    exact ⟨l, hl, List.mem_append_right _ h⟩

theorem exists_take_of_entry? {q : Query} {name : String} {t : Take} (h : q.entry? name = some t) :
    ∃ ts, q.take = some ts ∧ (name, t) ∈ ts := by
  have hmem : (name, t) ∈ q.take.getD [] := Entries.mem_of_get? h
  cases hts : q.take with
  | none => simp [hts] at hmem
  | some ts => exact ⟨ts, rfl, by simpa [hts] using hmem⟩

theorem entry?_of_mem {q : Query} (h : q.Tidy) {ts : List (String × Take)} (hts : q.take = some ts)
    {e : String × Take} (he : e ∈ ts) : q.entry? e.1 = some e.2 := by
  rw [ entry?, hts]
  exact Entries.get?_of_mem (h ts hts).2.nodup he

/-- A state with a leveled feature has edits. -/
theorem edits_ne_nil {q : Query} (h : ∀ l, q.IsLevel l → l.IsWritten)
    (features : q.leveledFeatures ≠ {}) : q.edits ≠ [] := by
  induction q using inductionOn with
  | step q ih =>
    intro hnil
    have hself := h q (.self q)
    have hpatches : q.patches = [] := by
      rw [← here_edits, hnil]
      rfl
    cases hts : q.take with
    | none =>
      have hsort := foldl_sort q
      have hfilter := foldl_filter q
      have hpage := foldl_page hself
      have hgroup := foldl_group hself
      rw [hpatches, List.foldl_nil] at hsort hfilter hpage hgroup
      apply features
      rw [leveledFeatures, hts, ← hsort, ← hfilter, ← hpage, ← hgroup]
    | some ts =>
      obtain ⟨⟨name, t⟩, hmem⟩ := List.exists_mem_of_ne_nil ts (hself.tidy ts hts).1
      have hname := entry?_of_mem hself.tidy hts hmem
      cases t with
      | flag taken =>
        have hentry := foldl_entry hself.tidy name
        rw [hpatches, hname] at hentry
        cases hentry
      | nested state =>
        have hbelow := below_edits hself.tidy name
        rw [hnil, hname] at hbelow
        exact ih ts hts name state hmem (fun l hl => h l (.nested hts hmem hl))
          (hself.nested ts hts name state hmem).2 hbelow.symm

/-! The state again -/

theorem ext_features {q r : Query} (root : q.rootFeatures = r.rootFeatures) (take : q.take = r.take)
    (filter : q.filter = r.filter) (sort : q.sort = r.sort) (page : q.page = r.page)
    (group : q.group = r.group) : q = r := by
  cases q
  cases r
  simp_all [rootFeatures]

theorem take_eq {q r : Query} (hq : q.Tidy) (hr : r.Tidy) (h : ∀ name, q.entry? name = r.entry? name) :
    q.take = r.take := by
  have hentries : q.take.getD [] = r.take.getD [] := hq.sorted.ext hr.sorted h
  cases hqtake : q.take with
  | none =>
    cases hrtake : r.take with
    | none => rfl
    | some ts =>
      rw [hqtake, hrtake] at hentries
      exact absurd hentries.symm (hr ts hrtake).1
  | some us =>
    cases hrtake : r.take with
    | none =>
      rw [hqtake, hrtake] at hentries
      exact absurd hentries (hq us hqtake).1
    | some ts =>
      rw [hqtake, hrtake] at hentries
      exact congrArg some hentries

theorem leveled_apply (q p : Query) : (q.apply p true).filter = p.filter.or q.filter ∧
    (q.apply p true).sort = p.sort.or q.sort ∧
    (q.apply p true).page = mergePage true q.page p.page ∧
    (q.apply p true).group = mergeMap true q.group p.group := by
  obtain ⟨space, resource, record, field, action, inspect, take, filter, sort, page, group⟩ := p
  cases take <;> exact ⟨rfl, rfl, rfl, rfl⟩

theorem rootFeatures_edited {edits : List Edit} (h : ∀ e ∈ edits, e.2.rootFeatures = {}) (q : Query) :
    (q.edited edits).rootFeatures = q.rootFeatures := by
  rw [edited_feature rootFeatures (fun features _ => features) fun e he =>
    rootFeatures_apply (h e he), foldl_leaves fun _ _ _ => rfl]
  rintro ⟨names, p⟩ - hnames q
  obtain ⟨name, names, rfl⟩ := List.exists_cons_of_ne_nil hnames
  rfl

/-- A leveled feature other than `take` is made by the patches of the state itself. -/
theorem edited_leveled {α : Type} {feature : Query → α} {patch : α → Query → α}
    (here : ∀ q p : Query, feature (q.apply p true) = patch (feature q) p)
    (below : ∀ (q : Query) ts, feature { q with take := ts } = feature q) (q : Query) :
    feature (q.rootFeatures.edited q.edits) = q.patches.foldl patch (feature q.rootFeatures) := by
  rw [edited_feature feature patch (fun e _ q => here q e.2) ?_, here_edits]
  rintro ⟨names, p⟩ - hnames q
  obtain ⟨name, names, rfl⟩ := List.exists_cons_of_ne_nil hnames
  exact below q _

/-- The edits of all levels make the state again. -/
theorem edited_edits {q : Query} (h : ∀ l, q.IsLevel l → l.IsWritten) :
    q.rootFeatures.edited q.edits = q := by
  induction q using inductionOn with
  | step q ih =>
    have hself := h q (.self q)
    have tidy : ∀ e ∈ q.edits, e.2.Tidy := by
      intro e he
      obtain ⟨l, hl, hp⟩ := mem_edits he
      exact tidy_of_mem_patches (h l hl).tidy hp
    have hentry (name : String) :
        Query.entry? (q.rootFeatures.edited q.edits) name = q.entry? name := by
      have hbelow := below_edits hself.tidy name
      have hhere := foldl_entry hself.tidy name
      rw [← here_edits] at hhere
      cases hname : q.entry? name with
      | none =>
        rw [hname] at hbelow hhere
        exact (entry?_edited_here tidy hbelow _).trans hhere
      | some t =>
        rw [hname] at hbelow hhere
        cases t with
        | flag taken => exact (entry?_edited_here tidy hbelow _).trans hhere
        | nested state =>
          obtain ⟨ts, hts, hmem⟩ := exists_take_of_entry? hname
          obtain ⟨hroot, hfeatures⟩ := hself.nested ts hts name state hmem
          have hlevels : ∀ l, state.IsLevel l → l.IsWritten := fun l hl => h l (.nested hts hmem hl)
          have hstate := ih ts hts name state hmem hlevels
          have hleaves : ∀ p ∈ Edit.here q.edits, p.entry? name = none := by
            rw [here_edits]
            exact fun p hp => entry?_of_mem_patches hself.tidy hname hp
          rw [hroot] at hstate
          rw [entry?_edited tidy hleaves, hbelow, if_neg (edits_ne_nil hlevels hfeatures)]
          exact congrArg (fun state => some (Take.nested state)) hstate
    have htake : (q.rootFeatures.edited q.edits).take = q.take := by
      have hroot : q.rootFeatures.Tidy := by rintro ts ⟨⟩
      exact take_eq (hroot.edited tidy) hself.tidy hentry
    refine ext_features ?_ htake ?_ ?_ ?_ ?_
    · refine rootFeatures_edited (fun e he => ?_) _
      obtain ⟨l, -, hp⟩ := mem_edits he
      exact rootFeatures_of_mem_patches hp
    · exact (edited_leveled (fun q p => (leveled_apply q p).1) (fun _ _ => rfl) q).trans (foldl_filter q)
    · exact (edited_leveled (fun q p => (leveled_apply q p).2.1) (fun _ _ => rfl) q).trans (foldl_sort q)
    · exact (edited_leveled (fun q p => (leveled_apply q p).2.2.1) (fun _ _ => rfl) q).trans
        (foldl_page hself)
    · exact (edited_leveled (fun q p => (leveled_apply q p).2.2.2) (fun _ _ => rfl) q).trans
        (foldl_group hself)

end Query
end RecordGraph
