import RecordGraph.Proofs.Query.Gathering
import RecordGraph.Proofs.Query.Rendering
import RecordGraph.Proofs.Text.Numeral

/-!
Parameters of a level applied to a state: each makes the patch of the setting it was written for, at
the level it was written at.
-/
namespace RecordGraph
open Value (leafMap)

/-! Names -/

namespace Names

/-- A name that a list of names can hold. -/
def IsName (s : String) : Prop := s ≠ "" ∧ ∀ c ∈ s.toList, isNameChar c

theorem isName_of_isKeySafe {s : String} (h : Query.isKeySafe s) :
    IsName s ∧ Text.afterChar? '-' s = none := by
  simp only [Query.isKeySafe, Bool.and_eq_true, String.all_bool_eq, List.all_eq_true] at h
  obtain ⟨⟨hfilled, hhead⟩, hchars⟩ := h
  refine ⟨⟨by simpa using hfilled, hchars⟩, ?_⟩
  cases hafter : Text.afterChar? '-' s with
  | none => rfl
  | some rest =>
    rw [Text.afterChar?_eq_some] at hafter
    simp [hafter] at hhead

/-- Names are split where they were joined. -/
theorem split_join {names : List String} (filled : names ≠ []) (h : ∀ s ∈ names, IsName s) :
    split (Text.join "," names) = names := by
  have hpieces : Text.piecesBy (fun c => !isNameChar c) (Text.join "," names) = names :=
    Text.piecesBy_join (c := ',') rfl (by decide) filled fun s hs c hc => by
      simp [(h s hs).2 c hc]
  rw [split, hpieces, List.filter_eq_self]
  intro s hs
  simpa using (h s hs).1

end Names

namespace Query

theorem isName_flagText {e : String × Take} (safe : isKeySafe e.1) : Names.IsName (flagText e) := by
  obtain ⟨⟨hfilled, hchars⟩, -⟩ := Names.isName_of_isKeySafe safe
  obtain ⟨name, t⟩ := e
  unfold flagText
  split
  · rename_i heq
    cases heq
    refine ⟨by simp [← String.toList_inj], ?_⟩
    rw [String.toList_append]
    exact List.forall_mem_append.mpr ⟨List.all_eq_true.mp (by decide), hchars⟩
  · rename_i heq
    cases heq
    exact ⟨hfilled, hchars⟩

theorem takeEntry_flagText {name : String} {taken : Bool} (safe : isKeySafe name) :
    Names.takeEntry (flagText (name, .flag taken)) = some (name, .flag taken) := by
  obtain ⟨⟨hfilled, hchars⟩, hafter⟩ := Names.isName_of_isKeySafe safe
  cases taken with
  | true => rw [flagText, Names.takeEntry, hafter]; simp
  | false =>
    have hminus : Text.afterChar? '-' ("-" ++ name) = some name := by
      rw [Text.afterChar?_eq_some, String.toList_append]
      rfl
    rw [flagText, Names.takeEntry, hminus]
    simp [hfilled]

theorem isKeySafe_of_mem_flags {q : Query} (h : q.IsWritten) {e : String × Take} (he : e ∈ q.flags) :
    isKeySafe e.1 := by
  have hmem := (List.mem_filter.mp he).1
  cases hts : q.take with
  | none => simp [hts] at hmem
  | some ts => exact (h.take ts hts).2.2 e (by simpa [hts] using hmem)

/-- The names that are taken or left out are read from their texts. -/
theorem take_flagTexts {q : Query} (h : q.IsWritten) (filled : q.flags ≠ []) :
    Names.take [Text.join "," (q.flags.map flagText)] = q.flags := by
  have hentries : (q.flags.map flagText).filterMap Names.takeEntry = q.flags := by
    have hflag : ∀ e ∈ q.flags, (Names.takeEntry ∘ flagText) e = some e := by
      rintro ⟨name, t⟩ he
      cases t with
      | flag taken => exact takeEntry_flagText (isKeySafe_of_mem_flags h he)
      | nested state => cases (List.mem_filter.mp he).2
    rw [List.filterMap_map, List.filterMap_congr hflag, List.filterMap_some]
  rw [Names.take, List.flatMap_singleton, Names.split_join (by simpa using filled), hentries]
  · exact Entries.ofList_of_sorted (h.tidy.sorted.sublist List.filter_sublist)
  · exact List.forall_mem_map.mpr fun e he => isName_flagText (isKeySafe_of_mem_flags h he)

theorem isName_of_unsigned {key : String} (safe : isKeySafe (unsigned key)) :
    Names.IsName key ∧ key ≠ "-" := by
  obtain ⟨⟨hfilled, hchars⟩, -⟩ := Names.isName_of_isKeySafe safe
  have hsplit := List.takeWhile_append_dropWhile (p := (· == '-')) (l := key.toList)
  refine ⟨⟨?_, fun c hc => ?_⟩, ?_⟩
  · rintro rfl
    exact hfilled rfl
  · rw [← hsplit, List.mem_append] at hc
    rcases hc with hc | hc
    · have hminus := List.mem_takeWhile_imp hc
      rw [show c = '-' by simpa using hminus]
      decide
    · exact hchars c (by rwa [unsigned, String.toList_ofList])
  · rintro rfl
    exact hfilled (by decide)

/-- Sort keys are read from their text. -/
theorem sort_join {keys : List String} (filled : keys ≠ [])
    (h : ∀ key ∈ keys, isKeySafe (unsigned key)) : Names.sort [Text.join "," keys] = keys := by
  rw [Names.sort, List.flatMap_singleton,
    Names.split_join filled fun key hkey => (isName_of_unsigned (h key hkey)).1, List.filter_eq_self]
  intro key hkey
  simpa using (isName_of_unsigned (h key hkey)).2

/-! Settings -/

/-- The setting is read back at the names, and makes the patch there. -/
structure Makes (names : List String) (s : Setting) (p : Query) : Prop where
  fits : s.Fits names
  feature : s.feature ∉ [.filter, .query]
  apply : ∀ q, Param.apply q (s.param names) = .ok (q.edit (names, p))

/-- Names that lead to a level. -/
def IsPath (names : List String) : Prop := ∀ name ∈ names, isKeySafe name

theorem IsPath.plain {names : List String} (h : IsPath names) :
    ∀ name ∈ names, name ≠ "" ∧ '.' ∉ name.toList ∧ ':' ∉ name.toList := by
  intro name hname
  obtain ⟨⟨hfilled, hchars⟩, -⟩ := Names.isName_of_isKeySafe (h name hname)
  exact ⟨hfilled, fun hc => absurd (hchars '.' hc) (by decide), fun hc =>
    absurd (hchars ':' hc) (by decide)⟩

theorem IsPath.update {names : List String} (h : IsPath names) (q p : Query) :
    q.update p names true = q.edit (names, p) := by
  have hnames : Level.names names = names := by
    rw [Level.names, List.filter_eq_self]
    intro name hname
    simpa using (h.plain name hname).1
  rw [Query.update, hnames, edit]

variable {q : Query} {names : List String}

/-- A setting of a leveled feature without subkeys. -/
theorem fits_plain {feature : Feature} (leveled : feature.isLeveled) (path : IsPath names) {value : String}
    (filled : value ≠ "") : Setting.Fits names ⟨feature, [], [value]⟩ where
  names := path.plain
  root h := absurd (leveled.symm.trans h) (by decide)
  subkeys := by simp
  values := by simp
  texts := by simpa using filled

theorem join_ne_empty {texts : List String} (filled : texts ≠ []) (h : ∀ s ∈ texts, s ≠ "") :
    Text.join "," texts ≠ "" := by
  obtain ⟨s, rest, rfl⟩ := List.exists_cons_of_ne_nil filled
  rw [ne_eq, ← String.toList_inj, Text.toList_join_cons]
  simp [h s List.mem_cons_self]

theorem makes_take (h : q.IsWritten) (path : IsPath names) {s : Setting × Query}
    (hs : s ∈ q.takeSettings) : Makes names s.1 s.2 := by
  unfold takeSettings at hs
  split at hs
  · cases hs
  · rename_i hfilled
    rw [List.isEmpty_iff] at hfilled
    rw [List.mem_singleton.mp hs]
    have hfits : Setting.Fits names ⟨.take, [], [Text.join "," (q.flags.map flagText)]⟩ :=
      fits_plain rfl path (join_ne_empty (by simpa using hfilled) (List.forall_mem_map.mpr fun e he =>
        (isName_flagText (isKeySafe_of_mem_flags h he)).1))
    refine ⟨hfits, by simp, fun r => ?_⟩
    have htake : Param.apply r (Setting.param names ⟨.take, [], [Text.join "," (q.flags.map flagText)]⟩) =
        .ok (r.update { take := some (Names.take [Text.join "," (q.flags.map flagText)]) } names true) := by
      rw [Param.apply, hfits.parts]
      rfl
    rw [htake, take_flagTexts h hfilled, path.update]

theorem makes_sort (h : q.IsWritten) (path : IsPath names) {s : Setting × Query}
    (hs : s ∈ q.sortSettings) : Makes names s.1 s.2 := by
  obtain ⟨keys, hkeys, rfl⟩ := List.mem_map.mp hs
  obtain ⟨hfilled, hsafe⟩ := h.sort keys (Option.mem_toList.mp hkeys)
  have hfits : Setting.Fits names ⟨.sort, [], [Text.join "," keys]⟩ :=
    fits_plain rfl path (join_ne_empty hfilled fun key hkey => (isName_of_unsigned (hsafe key hkey)).1.1)
  refine ⟨hfits, by simp, fun r => ?_⟩
  have hsort : Param.apply r (Setting.param names ⟨.sort, [], [Text.join "," keys]⟩) =
      .ok (r.update { sort := some (Names.sort [Text.join "," keys]) } names false) := by
    rw [Param.apply, hfits.parts]
    rfl
  rw [hsort, sort_join hfilled hsafe, ← path.update]
  rfl

/-- A setting with one subkey. -/
theorem fits_page (path : IsPath names) {subkey value : String} (plain : ':' ∉ subkey.toList)
    (filled : value ≠ "") : Setting.Fits names ⟨.page, [subkey], [value]⟩ where
  names := path.plain
  root h := by cases h
  subkeys k hk := by
    rw [List.mem_singleton.mp hk]
    exact plain
  values := by simp
  texts := by simpa using filled

theorem makes_page (h : q.IsWritten) (path : IsPath names) {s : Setting × Query}
    (hs : s ∈ q.pageSettings) : Makes names s.1 s.2 := by
  rcases List.mem_append.mp hs with hs | hs
  · obtain ⟨n, hn, rfl⟩ := List.mem_map.mp hs
    obtain ⟨page, hpage, hsize⟩ := Option.bind_eq_some_iff.mp (Option.mem_toList.mp hn)
    have hfits : Setting.Fits names ⟨.page, ["size"], [n.toNat.repr]⟩ :=
      fits_page path (by decide) Nat.repr_ne_empty
    have hpositive : 0 < n := by
      have hne : n ≠ 0 := fun hzero => (h.page page hpage).2.1 (hzero ▸ hsize)
      exact UInt64.pos_iff_ne_zero.mpr hne
    refine ⟨hfits, by simp, fun r => ?_⟩
    have hread : Param.page (Setting.param names ⟨.page, ["size"], [n.toNat.repr]⟩) ["size"] =
        .ok { size := some n } := by
      have hsome : (Text.uint64? n.toNat.repr).filter (fun n => 0 < n) = some n := by
        rw [Text.uint64?_repr]
        simp [Option.filter, hpositive]
      rw [Param.page, Setting.param, Param.single, Except.monad_bind, Except.ok_bind]
      dsimp only
      rw [hsome]
      rfl
    rw [← path.update, Param.apply, hfits.parts]
    simp only [Except.monad_bind, Except.ok_bind]
    rw [hread]
    rfl
  · obtain ⟨after, hafter, rfl⟩ := List.mem_map.mp hs
    obtain ⟨page, hpage, hafter⟩ := Option.bind_eq_some_iff.mp (Option.mem_toList.mp hafter)
    have hfilled : after ≠ "" := by
      rintro rfl
      exact (h.page page hpage).2.2 hafter
    have hfits : Setting.Fits names ⟨.page, ["after"], [after]⟩ := fits_page path (by decide) hfilled
    refine ⟨hfits, by simp, fun r => ?_⟩
    rw [← path.update, Param.apply, hfits.parts]
    rfl

/-- A leaf of a map is read from the subkeys and the values of its parameter. -/
theorem nest_leaf {l : List String × Value} (path : IsPath l.1) (filled : l.1 ≠ []) (leaf : l.2.IsLeaf)
    (key : String) : Param.nest ⟨key, l.2.texts⟩ l.1 = .ok (leafMap l) := by
  obtain ⟨subkeys, v⟩ := l
  obtain ⟨first, rest, rfl⟩ := List.exists_cons_of_ne_nil filled
  have hfilled : (first :: rest).any String.isEmpty = false := by
    rw [List.any_eq_false]
    intro name hname
    simpa using (path.plain name hname).1
  rw [Param.nest, hfilled, if_neg (by decide), leaf.read.2.2.1]
  rfl

theorem makes_group (h : q.IsWritten) (path : IsPath names) {s : Setting × Query}
    (hs : s ∈ q.groupSettings) : Makes names s.1 s.2 := by
  obtain ⟨l, hl, rfl⟩ := List.mem_map.mp hs
  obtain ⟨es, hes, hl⟩ := List.mem_flatMap.mp hl
  have hbranch := h.group es (Option.mem_toList.mp hes)
  obtain ⟨hpath, hleaf⟩ : IsPath l.1 ∧ l.2.IsLeaf := Value.mem_leaves hbranch hl
  have hfits : Setting.Fits names ⟨.group, l.1, l.2.texts⟩ := {
    names := path.plain
    root := fun h => by cases h
    subkeys := fun k hk => (hpath.plain k hk).2.2
    values := hleaf.read.1
    texts := hleaf.read.2.1 }
  refine ⟨hfits, by simp, fun r => ?_⟩
  have hnest := nest_leaf hpath (Value.ne_nil_of_mem_leaves hl) hleaf
    (Setting.key names ⟨.group, l.1, l.2.texts⟩)
  rw [← path.update, Param.apply, hfits.parts]
  simp only [Except.monad_bind, Except.ok_bind]
  rw [Setting.param, hnest]
  rfl

theorem makes_setting (h : q.IsWritten) (path : IsPath names) {s : Setting × Query}
    (hs : s ∈ q.settings) : Makes names s.1 s.2 := by
  rcases List.mem_append.mp hs with hs | hs
  · rcases List.mem_append.mp hs with hs | hs
    · rcases List.mem_append.mp hs with hs | hs
      · exact makes_take h path hs
      · exact makes_sort h path hs
    · exact makes_page h path hs
  · exact makes_group h path hs

/-! Predicates -/

theorem fits_filter (h : q.IsWritten) (path : IsPath names) {s : Setting} (hs : s ∈ q.filterSettings) :
    s.Fits names ∧ s.feature = .filter := by
  obtain ⟨v, hv, hs⟩ := List.mem_flatMap.mp hs
  obtain ⟨p, hp, rfl⟩ := List.mem_map.mp hs
  have hwrites := (filterParams_keys (h.filter v (Option.mem_toList.mp hv))).2.2 p hp
  exact ⟨{
    names := path.plain
    root := fun h => by cases h
    subkeys := hwrites.subkeys
    values := hwrites.values
    texts := hwrites.texts }, rfl⟩

/-- Parameters of a predicate are left for later. -/
theorem apply_filter {s : Setting} (fits : s.Fits names) (feature : s.feature = .filter) (r : Query) :
    Param.apply r (s.param names) = .ok r := by
  rw [Param.apply, fits.parts, feature]
  rfl

/-! All levels -/

theorem isPath_of_mem_levels (h : ∀ l, q.IsLevel l → l.IsWritten) {l : Query}
    (hl : (names, l) ∈ q.levels) : IsPath names := by
  induction q using inductionOn generalizing names with
  | step q ih =>
    rcases mem_levels.mp hl with ⟨rfl, -⟩ | ⟨ts, name, state, rest, hts, he, hrest, rfl⟩
    · exact fun _ h => absurd h List.not_mem_nil
    · exact List.forall_mem_cons.mpr ⟨((h q (.self q)).take ts hts).2.2 _ he,
        ih ts hts name state he (fun l hl => h l (.nested hts he hl)) hrest⟩

/-- The parameters of a state, each at its level. -/
def params (q : Query) : List Param := (atLevels own q).map fun s => s.2.param s.1

theorem params_eq (q : Query) :
    q.params = q.levels.flatMap fun l => (own l.2).map (Setting.param l.1) := by
  rw [params, atLevels, List.map_flatMap]
  simp only [List.map_map, Function.comp_def]

theorem foldlM_settings {ss : List (Setting × Query)} (h : ∀ s ∈ ss, Makes names s.1 s.2) (r : Query) :
    (ss.map fun s => s.1.param names).foldlM Param.apply r =
      .ok (r.edited (ss.map fun s => (names, s.2))) := by
  induction ss generalizing r with
  | nil => rfl
  | cons s ss ih =>
    rw [List.forall_mem_cons] at h
    rw [List.map_cons, List.foldlM_cons, h.1.apply, Except.monad_bind, Except.ok_bind, ih h.2]
    rfl

theorem foldlM_filters {ss : List Setting} (h : ∀ s ∈ ss, s.Fits names ∧ s.feature = .filter) (r : Query) :
    (ss.map (Setting.param names)).foldlM Param.apply r = .ok r := by
  induction ss with
  | nil => rfl
  | cons s ss ih =>
    rw [List.forall_mem_cons] at h
    rw [List.map_cons, List.foldlM_cons, apply_filter h.1.1 h.1.2, Except.monad_bind, Except.ok_bind, ih h.2]

/-- The parameters of all levels, applied one by one, make the edits of all features but predicates. -/
theorem foldlM_params (h : ∀ l, q.IsLevel l → l.IsWritten) (r : Query) :
    q.params.foldlM Param.apply r = .ok (r.edited (atLevels settingPatches q)) := by
  rw [params_eq, atLevels]
  have hlevels : ∀ l ∈ q.levels, IsPath l.1 ∧ l.2.IsWritten := fun l hl =>
    ⟨isPath_of_mem_levels h hl, h l.2 (isLevel_of_mem_levels hl)⟩
  generalize q.levels = levels at hlevels
  induction levels generalizing r with
  | nil => rfl
  | cons l levels ih =>
    rw [List.forall_mem_cons] at hlevels
    obtain ⟨⟨path, written⟩, hlevels⟩ := hlevels
    have hown : ((own l.2).map (Setting.param l.1)).foldlM Param.apply r =
        .ok (r.edited ((settingPatches l.2).map (l.1, ·))) := by
      rw [own, List.map_append, List.foldlM_append, List.map_map]
      have hsettings := foldlM_settings (fun s hs => makes_setting written path hs) r
      rw [Function.comp_def, hsettings, Except.monad_bind, Except.ok_bind,
        foldlM_filters fun s hs => fits_filter written path hs, settingPatches, List.map_map]
      rfl
    rw [List.flatMap_cons, List.foldlM_append, hown, Except.monad_bind, Except.ok_bind, ih _ hlevels,
      List.flatMap_cons, edited, edited, edited, List.foldl_append]

end Query

/-! Predicates by level -/

namespace Query
variable {q : Query} {names : List String}

/-- The predicates of all levels. -/
def predicates (q : Query) : List (List String × Value) := atLevels (fun l => l.filter.toList) q

/-- The key of a parameter of a predicate. -/
def filterKey (names : List String) (subkeys : List String) : String :=
  Setting.key names ⟨.filter, subkeys, []⟩

theorem key_filter (names subkeys values : List String) :
    Setting.key names ⟨.filter, subkeys, values⟩ = filterKey names subkeys := rfl

/-- The parameters of each predicate with its level. -/
def blocks (q : Query) : List (Level × List WhereParam) :=
  q.predicates.map fun p => (p.1, whereParams (filterKey p.1) (filterParams p.2))

theorem whereParam?_eq {s : Setting} (fits : s.Fits names) : (s.param names).whereParam? =
    if s.feature = .filter then some (names, ⟨s.key names, s.subkeys, s.values⟩) else none := by
  delta Param.whereParam?
  rw [fits.parts]
  obtain ⟨feature, subkeys, values⟩ := s
  cases feature <;> rfl

/-- Of the settings of a level, those of its predicate are kept. -/
theorem filterMap_own (written : q.IsWritten) (path : IsPath names) :
    (q.own.map (Setting.param names)).filterMap Param.whereParam? =
      q.filter.toList.flatMap fun v =>
        (whereParams (filterKey names) (filterParams v)).map (names, ·) := by
  have hsettings : ((q.settings.map Prod.fst).map (Setting.param names)).filterMap Param.whereParam? =
      [] := by
    rw [List.map_map, List.filterMap_map, List.filterMap_eq_nil_iff]
    intro s hs
    have hmakes := makes_setting written path hs
    rw [Function.comp_apply, Function.comp_apply, whereParam?_eq hmakes.fits, if_neg]
    exact fun hfilter => hmakes.feature (by simp [hfilter])
  have hfilters : (q.filterSettings.map (Setting.param names)).filterMap Param.whereParam? =
      q.filterSettings.map fun s => (names, ⟨s.key names, s.subkeys, s.values⟩) := by
    rw [List.filterMap_map, ← List.filterMap_eq_map]
    refine List.filterMap_congr fun s hs => ?_
    obtain ⟨fits, feature⟩ := fits_filter written path hs
    rw [Function.comp_apply, Function.comp_apply, whereParam?_eq fits, if_pos feature]
  rw [own, List.map_append, List.filterMap_append, hsettings, hfilters, List.nil_append, filterSettings,
    List.map_flatMap]
  refine List.flatMap_congr fun v _ => ?_
  rw [whereParams, List.map_map, List.map_map]
  refine List.map_congr_left fun p _ => ?_
  rw [Function.comp_apply, Function.comp_apply, key_filter]

theorem mem_predicates (h : ∀ l, q.IsLevel l → l.IsWritten) {p : List String × Value}
    (hp : p ∈ q.predicates) : IsPath p.1 ∧ p.2.IsFilter := by
  obtain ⟨l, hl, hlevel, hv⟩ := mem_atLevels hp
  exact ⟨isPath_of_mem_levels h hlevel, (h l hl).filter p.2 (Option.mem_toList.mp hv)⟩

theorem nodup_predicates (h : ∀ l, q.IsLevel l → l.IsWritten) : (q.predicates.map Prod.fst).Nodup := by
  have hsublist (levels : List (List String × Query)) :
      ((levels.flatMap fun l => l.2.filter.toList.map (l.1, ·)).map Prod.fst).Sublist
        (levels.map Prod.fst) := by
    induction levels with
    | nil => exact .slnil
    | cons l levels ih =>
      rw [List.flatMap_cons, List.map_append, List.map_cons]
      cases l.2.filter with
      | none => exact ih.cons _
      | some v => exact ih.cons_cons _
  exact (nodup_levels fun l hl => (h l hl).tidy).sublist (hsublist q.levels)

/-- The parameters of predicates are gathered by level. -/
theorem wheres_params (h : ∀ l, q.IsLevel l → l.IsWritten) : Param.wheres q.params = q.blocks := by
  have hfilter : q.params.filterMap Param.whereParam? = q.blocks.flatMap fun b => b.2.map (b.1, ·) := by
    rw [params_eq, List.filterMap_flatMap, blocks, List.flatMap_map, predicates, atLevels,
      List.flatMap_assoc]
    refine List.flatMap_congr fun l hl => ?_
    rw [filterMap_own (h l.2 (isLevel_of_mem_levels hl)) (isPath_of_mem_levels h hl), List.flatMap_map]
  have hdistinct : (q.blocks.map Prod.fst).Nodup := by
    rw [blocks, List.map_map]
    exact nodup_predicates h
  rw [Param.wheres_eq_gather, hfilter]
  refine Gather.gather_blocks (fun b hb => ?_) hdistinct
  obtain ⟨p, hp, rfl⟩ := List.mem_map.mp hb
  simpa [whereParams] using (filterParams_keys (mem_predicates h hp).2).1

/-- The predicates of all levels, assembled from their parameters, make the last edits. -/
theorem foldlM_blocks (h : ∀ l, q.IsLevel l → l.IsWritten) (r : Query) :
    q.blocks.foldlM (fun q b => do return q.update { filter := some (← assembleWhere b.2) } b.1 false) r =
      .ok (r.edited (atLevels filterPatches q)) := by
  have hedits : atLevels filterPatches q = q.predicates.map fun p => (p.1, { filter := some p.2 }) := by
    rw [predicates, atLevels, atLevels, List.map_flatMap]
    simp only [filterPatches, List.map_map, Function.comp_def]
  have hpredicates : ∀ p ∈ q.predicates, IsPath p.1 ∧ p.2.IsFilter := fun p hp => mem_predicates h hp
  rw [hedits, blocks]
  generalize q.predicates = predicates at hpredicates
  induction predicates generalizing r with
  | nil => rfl
  | cons p predicates ih =>
    rw [List.forall_mem_cons] at hpredicates
    obtain ⟨⟨path, filter⟩, hpredicates⟩ := hpredicates
    have hupdate : r.update { filter := some p.2 } p.1 false = r.edit (p.1, { filter := some p.2 }) :=
      path.update r { filter := some p.2 }
    rw [List.map_cons, List.foldlM_cons, assembleWhere_filterParams filter, Except.monad_bind,
      Except.monad_bind, Except.ok_bind]
    simp only [Except.monad_pure, Except.ok_bind]
    rw [hupdate]
    exact ih _ hpredicates

end Query
end RecordGraph
