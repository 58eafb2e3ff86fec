import RecordGraph.Proofs.Query.Applying

/-!
The root features of a state: the targets that follow one another are segments of the path, and what is
left of them, the action and the leaves of `inspect` are parameters.
-/
namespace RecordGraph.Query
open Value (leafMap)

/-- The targets of a state with their names. -/
def targets (q : Query) : List (String × Option String) :=
  [("space", q.space), ("resource", q.resource), ("record", q.record), ("field", q.field)]

theorem writeTargets_false (ts : List (String × Option String)) :
    writeTargets false ts = ([], ts.filterMap fun t => t.2.map (t.1, ·)) := by
  induction ts with
  | nil => rfl
  | cons t ts ih =>
    obtain ⟨name, value⟩ := t
    cases value <;> simp [writeTargets, ih]

/-- Targets are segments of the path up to one that is absent or not safe there. -/
theorem writeTargets_true (ts : List (String × Option String)) : ∃ k path,
    (ts.take k).map Prod.snd = path.map some ∧ (∀ s ∈ path, isPathSafe s) ∧ k ≤ ts.length ∧
      writeTargets true ts = (path, (ts.drop k).filterMap fun t => t.2.map (t.1, ·)) := by
  induction ts with
  | nil => exact ⟨0, [], rfl, by simp, Nat.le_refl _, rfl⟩
  | cons t ts ih =>
    obtain ⟨name, value⟩ := t
    have hstop (hwrite : writeTargets true ((name, value) :: ts) =
        writeTargets false ((name, value) :: ts)) : ∃ k path,
        (((name, value) :: ts).take k).map Prod.snd = path.map some ∧ (∀ s ∈ path, isPathSafe s) ∧
          k ≤ ((name, value) :: ts).length ∧ writeTargets true ((name, value) :: ts) =
            (path, (((name, value) :: ts).drop k).filterMap fun t => t.2.map (t.1, ·)) :=
      ⟨0, [], rfl, by simp, Nat.zero_le _, hwrite.trans (writeTargets_false _)⟩
    cases value with
    | none => exact hstop rfl
    | some v =>
      by_cases hsafe : isPathSafe v
      · obtain ⟨k, path, hpath, hall, hk, hwrite⟩ := ih
        refine ⟨k + 1, v :: path, ?_, List.forall_mem_cons.mpr ⟨hsafe, hall⟩, Nat.succ_le_succ hk, ?_⟩
        · rw [List.take_succ_cons, List.map_cons, hpath, List.map_cons]
        · simp [writeTargets, hsafe, hwrite]
      · exact hstop (by simp [writeTargets, hsafe])

/-! Settings of the root -/

/-- The settings of the targets, those of one target after those of the one before it. -/
def targetSettings (q : Query) : List (List (Setting × Query)) :=
  [q.space.toList.map fun s => (⟨.space, [], [s]⟩, { space := some s }),
    q.resource.toList.map fun s => (⟨.resource, [], [s]⟩, { resource := some s }),
    q.record.toList.map fun s => (⟨.record, [], [s]⟩, { record := some s }),
    q.field.toList.map fun s => (⟨.field, [], [s]⟩, { field := some s })]

def actionSettings (q : Query) : List (Setting × Query) :=
  q.action.toList.map fun a => (⟨.action, [], [a.name]⟩, { action := some a })

def inspectSettings (q : Query) : List (Setting × Query) :=
  (q.inspect.toList.flatMap fun es => (Value.obj es).leaves).map fun l =>
    (⟨.inspect, l.1, l.2.texts⟩, { inspect := some (leafMap l) })

/-- The settings of the root features, without the first targets. -/
def rootSettings (k : Nat) (q : Query) : List (Setting × Query) :=
  (q.targetSettings.drop k).flatten ++ q.actionSettings ++ q.inspectSettings

/-- A state whose root features can be written. -/
structure IsRooted (q : Query) : Prop where
  targets : some "" ∉ [q.space, q.resource, q.record, q.field]
  inspect : ∀ es, q.inspect = some es → (Value.obj es).IsBranch

theorem fits_root {value : String} (filled : value ≠ "") (feature : Feature) :
    Setting.Fits [] ⟨feature, [], [value]⟩ where
  names := by simp
  root _ := rfl
  subkeys := by simp
  values := by simp
  texts := by simpa using filled

theorem makes_target {q : Query} (h : q.IsRooted) {k : Nat} {s : Setting × Query}
    (hs : s ∈ (q.targetSettings.drop k).flatten) : Makes [] s.1 s.2 := by
  obtain ⟨ss, hss, hs⟩ := List.mem_flatten.mp hs
  have hmem := List.mem_of_mem_drop hss
  simp only [targetSettings, List.mem_cons, List.not_mem_nil, or_false] at hmem
  rcases hmem with rfl | rfl | rfl | rfl
  all_goals
    obtain ⟨v, hv, rfl⟩ := List.mem_map.mp hs
    have hfilled : v ≠ "" := by
      rintro rfl
      apply h.targets
      rw [← Option.mem_toList.mp hv]
      simp
    have hfits := fits_root hfilled
    refine ⟨hfits _, by simp, fun r => ?_⟩
    rw [Param.apply, (hfits _).parts]
    rfl

theorem makes_action {q : Query} {s : Setting × Query} (hs : s ∈ q.actionSettings) :
    Makes [] s.1 s.2 := by
  obtain ⟨a, -, rfl⟩ := List.mem_map.mp hs
  have hfits : Setting.Fits [] ⟨.action, [], [a.name]⟩ := fits_root (by cases a <;> decide) _
  refine ⟨hfits, by simp, fun r => ?_⟩
  have happly : Param.apply r (Setting.param [] ⟨.action, [], [a.name]⟩) =
      .ok { r with action := some a } := by
    rw [Param.apply, hfits.parts]
    simp only [Setting.param, Param.single, Except.monad_bind, Except.ok_bind, Action.ofName?_name]
    rfl
  rw [happly]
  rfl

theorem makes_inspect {q : Query} (h : q.IsRooted) {s : Setting × Query} (hs : s ∈ q.inspectSettings) :
    Makes [] s.1 s.2 := by
  obtain ⟨l, hl, rfl⟩ := List.mem_map.mp hs
  obtain ⟨es, hes, hl⟩ := List.mem_flatMap.mp hl
  obtain ⟨hpath, hleaf⟩ : IsPath l.1 ∧ l.2.IsLeaf :=
    Value.mem_leaves (h.inspect es (Option.mem_toList.mp hes)) hl
  have hfits : Setting.Fits [] ⟨.inspect, l.1, l.2.texts⟩ := {
    names := by simp
    root := fun _ => rfl
    subkeys := fun k hk => (hpath.plain k hk).2.1
    values := hleaf.read.1
    texts := hleaf.read.2.1 }
  refine ⟨hfits, by simp, fun r => ?_⟩
  have hnest := nest_leaf hpath (Value.ne_nil_of_mem_leaves hl) hleaf
    (Setting.key [] ⟨.inspect, l.1, l.2.texts⟩)
  rw [Param.apply, hfits.parts]
  simp only [Except.monad_bind, Except.ok_bind]
  rw [Setting.param, hnest]
  rfl

theorem makes_root {q : Query} (h : q.IsRooted) {k : Nat} {s : Setting × Query}
    (hs : s ∈ rootSettings k q) : Makes [] s.1 s.2 := by
  rcases List.mem_append.mp hs with hs | hs
  · rcases List.mem_append.mp hs with hs | hs
    · exact makes_target h hs
    · exact makes_action hs
  · exact makes_inspect h hs

/-- The targets of a state and nothing else. -/
def target (q : Query) : Query :=
  { space := q.space, resource := q.resource, record := q.record, field := q.field }

/-- The settings of the targets that are not on the path complete what the path addresses. -/
theorem edited_targets {q : Query} {k : Nat} (hk : k ≤ 4) {path : List String}
    (hpath : (q.targets.take k).map Prod.snd = path.map some) : ∃ r,
      Root.server.address {} path = some r ∧
        r.edited ((q.targetSettings.drop k).flatten.map fun s => ([], s.2)) = q.target := by
  obtain ⟨space, resource, record, field, action, inspect, take, filter, sort, page, group⟩ := q
  simp only [targets] at hpath
  match k, hk, path, hpath with
  | 0, _, [], _ =>
    refine ⟨{}, rfl, ?_⟩
    cases space <;> cases resource <;> cases record <;> cases field <;> rfl
  | 1, _, [a], h =>
    obtain rfl : space = some a := by simpa using h
    refine ⟨_, rfl, ?_⟩
    cases resource <;> cases record <;> cases field <;> rfl
  | 2, _, [a, b], h =>
    obtain ⟨rfl, rfl⟩ : space = some a ∧ resource = some b := by simpa using h
    refine ⟨_, rfl, ?_⟩
    cases record <;> cases field <;> rfl
  | 3, _, [a, b, c], h =>
    obtain ⟨rfl, rfl, rfl⟩ : space = some a ∧ resource = some b ∧ record = some c := by simpa using h
    refine ⟨_, rfl, ?_⟩
    cases field <;> rfl
  | 4, _, [a, b, c, d], h =>
    obtain ⟨rfl, rfl, rfl, rfl⟩ :
        space = some a ∧ resource = some b ∧ record = some c ∧ field = some d := by simpa using h
    exact ⟨_, rfl, rfl⟩

theorem edited_action {r : Query} (hr : r.action = none) (q : Query) :
    r.edited (q.actionSettings.map fun s => ([], s.2)) = { r with action := q.action } := by
  rw [actionSettings]
  cases q.action with
  | none => cases r; cases hr; rfl
  | some a => rfl

/-- The leaves of `inspect` are merged into it. -/
theorem edited_inspect {q r : Query} (h : q.IsRooted) (hr : r.inspect = none) :
    r.edited (q.inspectSettings.map fun s => ([], s.2)) = { r with inspect := q.inspect } := by
  have hleaves (ls : List (List String × Value)) (r : Query) :
      r.edited (ls.map fun l => ([], { inspect := some (leafMap l) })) =
        { r with inspect := ls.foldl (fun es l => mergeMap true es (some (leafMap l))) r.inspect } := by
    induction ls generalizing r with
    | nil => cases r; rfl
    | cons l ls ih => exact ih _
  rw [inspectSettings]
  cases hinspect : q.inspect with
  | none => cases r; cases hr; rfl
  | some es =>
    rw [List.map_map, Option.toList_some, List.flatMap_singleton]
    have hall := hleaves (Value.obj es).leaves r
    rw [hr, (h.inspect es hinspect).mergeMap_leaves] at hall
    exact hall

/-- The settings make the root features of what the path addresses. -/
theorem edited_root {q : Query} (h : q.IsRooted) {k : Nat} (hk : k ≤ 4) {path : List String}
    (hpath : (q.targets.take k).map Prod.snd = path.map some) : ∃ r,
      Root.server.address {} path = some r ∧
        r.edited ((rootSettings k q).map fun s => ([], s.2)) = q.rootFeatures := by
  obtain ⟨r, hr, htargets⟩ := edited_targets hk hpath
  refine ⟨r, hr, ?_⟩
  have happend (q : Query) (edits more : List Edit) :
      q.edited (edits ++ more) = (q.edited edits).edited more := List.foldl_append
  rw [rootSettings, List.map_append, List.map_append, happend, happend, htargets, edited_action rfl,
    edited_inspect h rfl]
  rfl

/-! Rendering -/

theorem key_root (feature : Feature) (values : List String) :
    Setting.key [] ⟨feature, [], values⟩ = feature.name := by
  rw [Setting.key, Text.join, String.intercalate_singleton, Text.join, String.intercalate_singleton]

theorem pairs_target (feature : Feature) (value : Option String) (patch : String → Query) :
    settingPairs [] ((value.toList.map fun s =>
      ((⟨feature, [], [s]⟩ : Setting), patch s)).map Prod.fst) = (value.map (feature.name, ·)).toList := by
  cases value with
  | none => rfl
  | some s =>
    rw [Option.toList_some, List.map_singleton, List.map_singleton, settingPairs, List.flatMap_singleton,
      Param.pairs, Setting.param, key_root]
    rfl

/-- Targets that are not on the path are rendered as settings. -/
theorem targets_drop (q : Query) (k : Nat) :
    ((q.targets.drop k).filterMap fun t => t.2.map (t.1, ·)) =
      settingPairs [] ((q.targetSettings.drop k).flatten.map Prod.fst) := by
  have hpairs : q.targets.map (fun t => (t.2.map (t.1, ·)).toList) =
      q.targetSettings.map fun ss => settingPairs [] (ss.map Prod.fst) := by
    simp only [targets, targetSettings, List.map_cons, List.map_nil, pairs_target]
    rfl
  have hflatten (sss : List (List (Setting × Query))) : settingPairs [] (sss.flatten.map Prod.fst) =
      (sss.map fun ss => settingPairs [] (ss.map Prod.fst)).flatten := by
    rw [settingPairs, List.map_flatten, List.flatten_eq_flatMap, List.flatMap_assoc, List.flatMap_map]
    rfl
  rw [hflatten, List.map_drop, ← hpairs, ← List.map_drop, List.filterMap_eq_flatMap_toList]
  rfl

theorem pairs_action (q : Query) : (q.action.map fun a => ("action", a.name)).toList =
    settingPairs [] (q.actionSettings.map Prod.fst) := by
  rw [actionSettings]
  cases q.action with
  | none => rfl
  | some a =>
    rw [Option.toList_some, List.map_singleton, List.map_singleton, settingPairs, List.flatMap_singleton,
      Param.pairs, Setting.param, key_root]
    rfl

theorem writeInspect_eq {q : Query} (h : q.IsRooted) : writeOption (writeMap "inspect" ".") q.inspect =
    some (settingPairs [] (q.inspectSettings.map Prod.fst)) := by
  rw [inspectSettings]
  cases hinspect : q.inspect with
  | none => rfl
  | some es =>
    have hkey (subkeys values : List String) : Setting.key [] ⟨.inspect, subkeys, values⟩ =
        Text.join "." ("inspect" :: subkeys) := by
      rw [Setting.key, Text.join, Text.join, String.intercalate_singleton]
      rfl
    rw [writeOption, writeMap_branch (h.inspect es hinspect)]
    simp [settingPairs, leafPairs, Param.pairs, Setting.param, hkey, List.flatMap_map]

/-- The segments of the path of a state. -/
def path (q : Query) : List String := (writeTargets true q.targets).1

/-- The path and the parameters of a state whose features can be written. -/
theorem render_eq {q : Query} (root : q.IsRooted) (levels : ∀ l, q.IsLevel l → l.IsWritten) :
    ∃ k ≤ 4, (q.targets.take k).map Prod.snd = q.path.map some ∧ (∀ s ∈ q.path, isPathSafe s) ∧
      q.render = some (
        let pairs := settingPairs [] ((rootSettings k q).map Prod.fst) ++ levelPairs [] q
        let path := "/" ++ Text.join "/" q.path
        if pairs.isEmpty then path else path ++ "?" ++ String.ofList (Text.Form.encode pairs)) := by
  obtain ⟨k, path, hpath, hsafe, hk, hwrite⟩ := writeTargets_true q.targets
  have hq : q.path = path := by rw [Query.path, hwrite]
  rw [hq]
  refine ⟨k, hk, hpath, hsafe, ?_⟩
  have hlevel : writeLevel "" q = some (levelPairs [] q) := by
    refine writeLevel_eq levels fun name => ?_
    rw [Text.join, String.intercalate_singleton, String.append_empty]
  rw [targets] at hwrite
  rw [render, hwrite, ← targets, targets_drop, pairs_action, writeInspect_eq root, hlevel, rootSettings]
  simp only [List.map_append, settingPairs_append]
  rfl

end RecordGraph.Query
