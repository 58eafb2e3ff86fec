import RecordGraph.Proofs.Query.Levels

/-!
The leveled features of a state are rendered setting by setting, those of its nested states before its
own.
-/
namespace RecordGraph.Query

/-- All settings of a level in the order they are written. -/
def own (q : Query) : List Setting := q.settings.map Prod.fst ++ q.filterSettings

/-- The pairs of settings at one level. -/
def settingPairs (names : List String) (settings : List Setting) : List (String × String) :=
  settings.flatMap fun s => (s.param names).pairs

theorem settingPairs_append (names : List String) (settings more : List Setting) :
    settingPairs names (settings ++ more) = settingPairs names settings ++ settingPairs names more :=
  List.flatMap_append

section own
variable {names : List String} {suffix : String}
  (hsuffix : ∀ name, Text.join "." (name :: names) = name ++ suffix)
include hsuffix

/-- The key of a leveled feature. -/
theorem key_leveled (feature : Feature) (h : feature.isLeveled) (subkeys values : List String) :
    Setting.key names ⟨feature, subkeys, values⟩ =
      Text.join ":" ((feature.name ++ suffix) :: subkeys) := by
  rw [Setting.key, hsuffix, Feature.separator, if_pos h]
  rfl

theorem key_plain (feature : Feature) (h : feature.isLeveled) (values : List String) :
    Setting.key names ⟨feature, [], values⟩ = feature.name ++ suffix := by
  rw [key_leveled hsuffix feature h, Text.join, String.intercalate_singleton]

theorem writeFlags_eq (q : Query) :
    writeFlags ("take" ++ suffix) (q.flags.map flagText) =
      settingPairs names (q.takeSettings.map Prod.fst) := by
  rw [takeSettings, writeFlags]
  cases hflags : q.flags with
  | nil => rfl
  | cons e es =>
    have hkey := key_plain hsuffix .take rfl [Text.join "," ((e :: es).map flagText)]
    rw [if_neg (by simp), if_neg (by simp), List.map_singleton, settingPairs, List.flatMap_singleton,
      Param.pairs, Setting.param, hkey]
    rfl

theorem writeSort_eq {q : Query} (h : q.IsWritten) :
    writeOption (writeSort ("sort" ++ suffix)) q.sort =
      some (settingPairs names (q.sortSettings.map Prod.fst)) := by
  rw [sortSettings]
  cases hsort : q.sort with
  | none => rfl
  | some keys =>
    obtain ⟨hfilled, hkeys⟩ := h.sort keys hsort
    have hkey := key_plain hsuffix .sort rfl [Text.join "," keys]
    have hall : (keys.all fun k => isKeySafe (String.ofList (k.toList.dropWhile (· == '-')))) = true :=
      List.all_eq_true.mpr hkeys
    rw [writeOption, writeSort, if_neg (by simp [hfilled, hall]), Option.toList_some, List.map_singleton,
      List.map_singleton, settingPairs, List.flatMap_singleton, Param.pairs, Setting.param, hkey]
    rfl

theorem writePage_eq (q : Query) :
    writeOption (fun p => some (writePage ("page" ++ suffix) p)) q.page =
      some (settingPairs names (q.pageSettings.map Prod.fst)) := by
  have hkey (subkey value : String) : Setting.key names ⟨.page, [subkey], [value]⟩ =
      "page" ++ suffix ++ ":" ++ subkey := by
    rw [key_leveled hsuffix _ rfl, Text.join_cons_cons, Text.join, String.intercalate_singleton]
    rfl
  rw [pageSettings]
  cases q.page with
  | none => rfl
  | some page =>
    obtain ⟨size, after⟩ := page
    cases size <;> cases after <;>
      simp [writeOption, writePage, settingPairs, Param.pairs, Setting.param, hkey, String.append_assoc]

theorem writeGroup_eq {q : Query} (h : q.IsWritten) :
    writeOption (writeMap ("group" ++ suffix) ":") q.group =
      some (settingPairs names (q.groupSettings.map Prod.fst)) := by
  rw [groupSettings]
  cases hgroup : q.group with
  | none => rfl
  | some es =>
    have hkey := key_leveled hsuffix .group rfl
    rw [writeOption, writeMap_branch (h.group es hgroup)]
    simp [settingPairs, leafPairs, Param.pairs, Setting.param, hkey, List.flatMap_map, Feature.name]

theorem writeFilter_option {q : Query} (h : q.IsWritten) :
    writeOption (writeFilter ("where" ++ suffix)) q.filter =
      some (settingPairs names q.filterSettings) := by
  rw [filterSettings]
  cases hfilter : q.filter with
  | none => rfl
  | some v =>
    have hkey := key_leveled hsuffix .filter rfl
    rw [writeOption, writeFilter_eq (h.filter v hfilter)]
    simp [settingPairs, paramPairs, Param.pairs, Setting.param, hkey, List.flatMap_map, Feature.name]

end own

/-! All levels -/

/-- The pairs of all levels of a state below the names. -/
def levelPairs (names : List String) (q : Query) : List (String × String) :=
  (atLevels own q).flatMap fun s => (s.2.param (names ++ s.1)).pairs

/-- The pairs of what a name is taken with. -/
def takePairs (names : List String) (e : String × Take) : List (String × String) :=
  match e.2 with
  | .flag _ => []
  | .nested state => levelPairs (names ++ [e.1]) state

theorem levelPairs_eq (names : List String) (q : Query) :
    levelPairs names q = (q.take.getD []).flatMap (takePairs names) ++ settingPairs names q.own := by
  rw [levelPairs, atLevels, levels_eq, List.flatMap_append, List.flatMap_append]
  congr 1
  · rw [List.flatMap_assoc, List.flatMap_assoc]
    refine List.flatMap_congr fun e _ => ?_
    obtain ⟨name, t⟩ := e
    cases t with
    | flag taken => rfl
    | nested state =>
      change _ = levelPairs (names ++ [name]) state
      rw [levelPairs, levelsAt, atLevels]
      simp [List.flatMap_map, List.flatMap_assoc]
  · simp [settingPairs, List.flatMap_map]

/-- The pairs of the nested states, and the names that are taken or left out as they are. -/
theorem writeTakes_eq {names : List String} {suffix : String} {ts : List (String × Take)}
    (safe : ∀ e ∈ ts, isKeySafe e.1)
    (nested : ∀ name state, (name, Take.nested state) ∈ ts →
      writeLevel (suffix ++ "." ++ name) state = some (levelPairs (names ++ [name]) state)) :
    writeTakes suffix ts = some (ts.flatMap (takePairs names), (ts.filter fun e => match e.2 with
      | .flag _ => true
      | .nested _ => false).map flagText) := by
  induction ts with
  | nil => rfl
  | cons e ts ih =>
    obtain ⟨name, t⟩ := e
    rw [List.forall_mem_cons] at safe
    have hrest := ih safe.2 fun name state hmem => nested name state (List.mem_cons_of_mem _ hmem)
    rw [writeTakes, if_pos safe.1, hrest]
    cases t with
    | flag taken => cases taken <;> rfl
    | nested state =>
      rw [writeTake, nested name state List.mem_cons_self]
      rfl

/-- Every level is rendered setting by setting. -/
theorem writeLevel_eq {q : Query} (h : ∀ l, q.IsLevel l → l.IsWritten) {names : List String}
    {suffix : String} (hsuffix : ∀ name, Text.join "." (name :: names) = name ++ suffix) :
    writeLevel suffix q = some (levelPairs names q) := by
  induction q using inductionOn generalizing names suffix with
  | step q ih =>
    have hself := h q (.self q)
    have hwrite : writeLevel suffix q =
        q.take.elim (some []) (fun ts => (writeTakes suffix ts).map fun p =>
          p.1 ++ writeFlags ("take" ++ suffix) p.2) ++
        writeOption (writeSort ("sort" ++ suffix)) q.sort ++
        writeOption (fun p => some (writePage ("page" ++ suffix) p)) q.page ++
        writeOption (writeMap ("group" ++ suffix) ":") q.group ++
        writeOption (writeFilter ("where" ++ suffix)) q.filter := by
      obtain ⟨space, resource, record, field, action, inspect, take, filter, sort, page, group⟩ := q
      cases take <;> rfl
    have htakes : q.take.elim (some []) (fun ts => (writeTakes suffix ts).map fun p =>
        p.1 ++ writeFlags ("take" ++ suffix) p.2) =
        some ((q.take.getD []).flatMap (takePairs names) ++
          settingPairs names (q.takeSettings.map Prod.fst)) := by
      rw [← writeFlags_eq hsuffix, flags]
      cases hts : q.take with
      | none => rfl
      | some ts =>
        have hnested (name : String) (state : Query) (hmem : (name, Take.nested state) ∈ ts) :
            writeLevel (suffix ++ "." ++ name) state = some (levelPairs (names ++ [name]) state) := by
          refine ih ts hts name state hmem (fun l hl => h l (.nested hts hmem hl)) fun first => ?_
          rw [← List.cons_append, Text.join_concat (List.cons_ne_nil _ _), hsuffix]
          simp only [String.append_assoc]
        rw [Option.elim_some, writeTakes_eq (hself.take ts hts).2.2 hnested]
        rfl
    rw [hwrite, htakes, writeSort_eq hsuffix hself, writePage_eq hsuffix, writeGroup_eq hsuffix hself,
      writeFilter_option hsuffix hself, levelPairs_eq, own, settings]
    simp only [List.map_append, settingPairs_append, ← List.append_assoc]
    rfl

end RecordGraph.Query
