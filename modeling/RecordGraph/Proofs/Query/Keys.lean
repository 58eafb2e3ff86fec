import RecordGraph.Proofs.Query.Roots

/-!
The settings of a state have keys of their own, so the pairs they are written as are grouped into them
again.
-/
namespace RecordGraph

/-- What a key tells of a setting at a level. -/
abbrev Facet := List String × Feature × List String

namespace Query

/-- All settings of a state with their levels, without those of the first targets. -/
def allSettings (k : Nat) (q : Query) : List (List String × Setting) :=
  (rootSettings k q).map (fun s => ([], s.1)) ++ atLevels own q

def facet (s : List String × Setting) : Facet := (s.1, s.2.feature, s.2.subkeys)

/-- A parameter is taken apart by its key alone. -/
theorem parts_values (key : String) (values : List String) :
    Param.parts ⟨key, values⟩ = Param.parts ⟨key, []⟩ := by
  rw [Param.parts, Param.parts]

/-- Settings that differ in what their keys tell differ in their keys. -/
theorem nodup_keys {ss : List (List String × Setting)} (fits : ∀ s ∈ ss, s.2.Fits s.1)
    (distinct : (ss.map facet).Nodup) : (ss.map fun s => s.2.key s.1).Nodup := by
  have hparts (s : List String × Setting) (hs : s ∈ ss) :
      Param.parts ⟨s.2.key s.1, []⟩ = .ok ⟨s.2.feature, s.1, s.2.subkeys⟩ := by
    rw [← parts_values _ s.2.values]
    exact (fits s hs).parts
  rw [List.Nodup, List.pairwise_map] at distinct ⊢
  refine distinct.imp_of_mem fun {s t} hs ht hne hkey => hne ?_
  have heq := hparts s hs
  rw [hkey, hparts t ht, Except.ok.injEq, Param.Parts.mk.injEq] at heq
  rw [facet, facet, heq.1, heq.2.1, heq.2.2]

/-- Leaves of a map under one feature differ in their subkeys. -/
theorem nodup_leaves {es : Option (Entries Value)} (h : ∀ m, es = some m → (Value.obj m).IsBranch)
    (feature : Feature) :
    ((es.toList.flatMap fun m => (Value.obj m).leaves).map fun l => (feature, l.1)).Nodup := by
  cases es with
  | none => exact .nil
  | some m =>
    have hpaths := (h m rfl).nodup_paths
    rw [Option.toList_some, List.flatMap_singleton]
    rw [List.Nodup, List.pairwise_map] at hpaths ⊢
    exact hpaths.imp fun hne heq => hne (Prod.mk.inj heq).2

theorem nodup_filters {q : Query} (h : q.IsWritten) :
    (q.filterSettings.map fun s => (s.feature, s.subkeys)).Nodup := by
  rw [filterSettings]
  cases hfilter : q.filter with
  | none => exact .nil
  | some v =>
    have hkeys := (filterParams_keys (h.filter v hfilter)).2.1
    rw [Option.toList_some, List.flatMap_singleton, List.map_map]
    rw [List.Nodup, List.pairwise_map] at hkeys ⊢
    exact hkeys.imp fun hne heq => hne (Prod.mk.inj heq).2

theorem toList_sublist {α β : Type} (o : Option α) {f : α → β} {b : β} (h : ∀ a, f a = b) :
    (o.toList.map f).Sublist [b] := by
  cases o with
  | none => exact List.nil_sublist _
  | some a => simp [h a]

/-- Lists of different features have nothing in common. -/
theorem nodup_append_features (features : List Feature) {as bs : List (Feature × List String)}
    (ha : as.Nodup) (hb : bs.Nodup) {feature : Feature} (has : ∀ a ∈ as, a.1 ∈ features)
    (hbs : ∀ b ∈ bs, b.1 = feature) (distinct : feature ∉ features) : (as ++ bs).Nodup := by
  refine List.nodup_append.mpr ⟨ha, hb, ?_⟩
  rintro a ha _ hb rfl
  exact distinct (hbs a hb ▸ has a ha)

theorem sublist_plain (q : Query) :
    ((q.takeSettings ++ q.sortSettings ++ q.pageSettings).map fun s =>
      (s.1.feature, s.1.subkeys)).Sublist
      [(Feature.take, []), (.sort, []), (.page, ["size"]), (.page, ["after"])] := by
  have htake : (q.takeSettings.map fun s => (s.1.feature, s.1.subkeys)).Sublist
      [(Feature.take, [])] := by
    unfold takeSettings
    split
    · exact List.nil_sublist _
    · exact List.Sublist.refl _
  have hpage : (q.pageSettings.map fun s => (s.1.feature, s.1.subkeys)).Sublist
      [(Feature.page, ["size"]), (.page, ["after"])] := by
    rw [pageSettings, List.map_append, List.map_map, List.map_map]
    have hsize := toList_sublist (q.page.bind Page.size) (f := fun _ => (Feature.page, ["size"]))
      fun _ => rfl
    have hafter := toList_sublist (q.page.bind Page.after) (f := fun _ => (Feature.page, ["after"]))
      fun _ => rfl
    exact hsize.append hafter
  have hsort : (q.sortSettings.map fun s => (s.1.feature, s.1.subkeys)).Sublist
      [(Feature.sort, [])] := by
    rw [sortSettings, List.map_map]
    exact toList_sublist _ fun _ => rfl
  rw [List.map_append, List.map_append]
  exact (htake.append hsort).append hpage

theorem feature_group (q : Query) :
    ∀ a ∈ q.groupSettings.map fun s => (s.1.feature, s.1.subkeys), a.1 = Feature.group := by
  rw [groupSettings, List.map_map]
  exact List.forall_mem_map.mpr fun _ _ => rfl

theorem feature_filter (q : Query) :
    ∀ a ∈ q.filterSettings.map fun s => (s.feature, s.subkeys), a.1 = Feature.filter := by
  rw [filterSettings, List.map_flatMap]
  refine List.forall_mem_flatMap.mpr fun v _ => ?_
  rw [List.map_map]
  exact List.forall_mem_map.mpr fun _ _ => rfl

theorem feature_plain (q : Query) :
    ∀ a ∈ (q.takeSettings ++ q.sortSettings ++ q.pageSettings).map fun s => (s.1.feature, s.1.subkeys),
      a.1 ∈ [Feature.take, .sort, .page] := by
  intro a ha
  have hmem := (sublist_plain q).subset ha
  simp only [List.mem_cons, List.not_mem_nil, or_false] at hmem
  rcases hmem with rfl | rfl | rfl | rfl <;> decide

theorem own_facets (q : Query) : q.own.map (fun s => (s.feature, s.subkeys)) =
    ((q.takeSettings ++ q.sortSettings ++ q.pageSettings).map fun s => (s.1.feature, s.1.subkeys)) ++
      (q.groupSettings.map fun s => (s.1.feature, s.1.subkeys)) ++
      q.filterSettings.map fun s => (s.feature, s.subkeys) := by
  rw [own, settings, List.map_append, List.map_map, List.map_append]
  rfl

/-- The settings of a level differ in their features or their subkeys. -/
theorem nodup_own {q : Query} (h : q.IsWritten) :
    (q.own.map fun s => (s.feature, s.subkeys)).Nodup := by
  have hgroup : (q.groupSettings.map fun s => (s.1.feature, s.1.subkeys)).Nodup := by
    rw [groupSettings, List.map_map]
    exact nodup_leaves h.group .group
  have hplain : ((q.takeSettings ++ q.sortSettings ++ q.pageSettings).map fun s =>
      (s.1.feature, s.1.subkeys)).Nodup := List.Nodup.sublist (sublist_plain q) (by decide)
  rw [own_facets]
  refine nodup_append_features [.take, .sort, .page, .group]
    (nodup_append_features [.take, .sort, .page] hplain hgroup (feature_plain q) (feature_group q) (by decide))
    (nodup_filters h) (List.forall_mem_append.mpr ⟨fun a ha => ?_, fun a ha => ?_⟩) (feature_filter q)
    (by decide)
  · exact List.mem_append_left [Feature.group] (feature_plain q a ha)
  · rw [feature_group q a ha]
    decide

theorem isLeveled_of_mem_own {q : Query} {s : Setting} (h : s ∈ q.own) : s.feature.isLeveled := by
  have hmem : (s.feature, s.subkeys) ∈ q.own.map fun s => (s.feature, s.subkeys) :=
    List.mem_map_of_mem h
  rw [own_facets, List.mem_append, List.mem_append] at hmem
  rcases hmem with (hmem | hmem) | hmem
  · have hfeature := feature_plain q _ hmem
    simp only [List.mem_cons, List.not_mem_nil, or_false] at hfeature
    rcases hfeature with hfeature | hfeature | hfeature <;> rw [hfeature] <;> rfl
  · rw [show s.feature = .group from feature_group q _ hmem]
    rfl
  · rw [show s.feature = .filter from feature_filter q _ hmem]
    rfl

theorem sublist_root (q : Query) (k : Nat) :
    (((q.targetSettings.drop k).flatten ++ q.actionSettings).map fun s =>
      (s.1.feature, s.1.subkeys)).Sublist
      [(Feature.space, []), (.resource, []), (.record, []), (.field, []), (.action, [])] := by
  have hone {o : Option String} (feature : Feature) (patch : String → Query) :
      ((o.toList.map fun s => ((⟨feature, [], [s]⟩ : Setting), patch s)).map fun s =>
        (s.1.feature, s.1.subkeys)).Sublist [(feature, [])] := by
    rw [List.map_map]
    exact toList_sublist _ fun _ => rfl
  have htargets : (q.targetSettings.flatten.map fun s => (s.1.feature, s.1.subkeys)).Sublist
      [(Feature.space, []), (.resource, []), (.record, []), (.field, [])] := by
    simp only [targetSettings, List.flatten_cons, List.flatten_nil, List.append_nil, List.map_append]
    exact (hone .space _).append ((hone .resource _).append ((hone .record _).append (hone .field _)))
  have hdrop : (((q.targetSettings.drop k).flatten).map fun s => (s.1.feature, s.1.subkeys)).Sublist
      (q.targetSettings.flatten.map fun s => (s.1.feature, s.1.subkeys)) := by
    refine List.Sublist.map _ ?_
    conv_rhs => rw [← List.take_append_drop k q.targetSettings, List.flatten_append]
    exact List.sublist_append_right _ _
  have haction : (q.actionSettings.map fun s => (s.1.feature, s.1.subkeys)).Sublist
      [(Feature.action, [])] := by
    rw [actionSettings, List.map_map]
    exact toList_sublist _ fun _ => rfl
  rw [List.map_append]
  exact (hdrop.trans htargets).append haction

theorem feature_inspect (q : Query) :
    ∀ a ∈ q.inspectSettings.map fun s => (s.1.feature, s.1.subkeys), a.1 = Feature.inspect := by
  rw [inspectSettings, List.map_map]
  exact List.forall_mem_map.mpr fun _ _ => rfl

/-- The settings of the root features differ in their features or their subkeys. -/
theorem nodup_root {q : Query} (h : q.IsRooted) (k : Nat) :
    ((rootSettings k q).map fun s => (s.1.feature, s.1.subkeys)).Nodup ∧
      ∀ s ∈ rootSettings k q, s.1.feature.isLeveled = false := by
  have hfeatures : ∀ a ∈ ((q.targetSettings.drop k).flatten ++ q.actionSettings).map fun s =>
      (s.1.feature, s.1.subkeys), a.1 ∈ [Feature.space, .resource, .record, .field, .action] := by
    intro a ha
    have hmem := (sublist_root q k).subset ha
    simp only [List.mem_cons, List.not_mem_nil, or_false] at hmem
    rcases hmem with rfl | rfl | rfl | rfl | rfl <;> decide
  constructor
  · have hinspect : (q.inspectSettings.map fun s => (s.1.feature, s.1.subkeys)).Nodup := by
      rw [inspectSettings, List.map_map]
      exact nodup_leaves h.inspect .inspect
    rw [rootSettings, List.map_append]
    exact nodup_append_features _ (List.Nodup.sublist (sublist_root q k) (by decide)) hinspect hfeatures
      (feature_inspect q) (by decide)
  · intro s hs
    rcases List.mem_append.mp hs with hs | hs
    · have hfeature := hfeatures _ (List.mem_map_of_mem hs)
      simp only [List.mem_cons, List.not_mem_nil, or_false] at hfeature
      rcases hfeature with h | h | h | h | h <;> rw [h] <;> rfl
    · rw [show s.1.feature = .inspect from feature_inspect q _ (List.mem_map_of_mem hs)]
      rfl

/-- All settings of a state differ in what their keys tell. -/
theorem nodup_allSettings {q : Query} (root : q.IsRooted) (levels : ∀ l, q.IsLevel l → l.IsWritten)
    (k : Nat) : ((allSettings k q).map facet).Nodup := by
  obtain ⟨hroot, hunleveled⟩ := nodup_root root k
  rw [allSettings, List.map_append, List.map_map]
  refine List.nodup_append.mpr ⟨?_, ?_, ?_⟩
  · rw [List.Nodup, List.pairwise_map] at hroot ⊢
    exact hroot.imp fun hne heq => hne (Prod.mk.inj heq).2
  · rw [atLevels, List.map_flatMap]
    refine List.nodup_flatMap.mpr ⟨fun l hl => ?_, ?_⟩
    · have hown := nodup_own (levels l.2 (isLevel_of_mem_levels hl))
      rw [List.map_map]
      rw [List.Nodup, List.pairwise_map] at hown ⊢
      exact hown.imp fun hne heq => hne (Prod.mk.inj heq).2
    · have hlevels := nodup_levels fun l hl => (levels l hl).tidy
      rw [List.Nodup, List.pairwise_map] at hlevels
      refine hlevels.imp fun hne a ha ha' => hne ?_
      simp only [List.map_map, List.mem_map] at ha ha'
      obtain ⟨s, -, rfl⟩ := ha
      obtain ⟨s', -, heq⟩ := ha'
      exact (Prod.mk.inj heq).1.symm
  · intro a ha b hb heq
    obtain ⟨s, hs, rfl⟩ := List.mem_map.mp ha
    obtain ⟨t, ht, rfl⟩ := List.mem_map.mp hb
    obtain ⟨l, -, -, ht⟩ := mem_atLevels ht
    have hfeature : s.1.feature = t.2.feature := (Prod.mk.inj (Prod.mk.inj heq).2).1
    have hleveled := isLeveled_of_mem_own ht
    rw [← hfeature, hunleveled s hs] at hleveled
    cases hleveled

/-- Every setting of a state is read back from its key. -/
theorem fits_allSettings {q : Query} (root : q.IsRooted) (levels : ∀ l, q.IsLevel l → l.IsWritten)
    {k : Nat} {s : List String × Setting} (hs : s ∈ allSettings k q) :
    s.2.Fits s.1 ∧ s.2.feature ≠ .query := by
  rcases List.mem_append.mp hs with hs | hs
  · obtain ⟨t, ht, rfl⟩ := List.mem_map.mp hs
    have hmakes := makes_root root ht
    exact ⟨hmakes.fits, fun h => hmakes.feature (List.mem_pair.mpr (.inr h))⟩
  · obtain ⟨l, hl, hlevel, hown⟩ := mem_atLevels hs
    have hpath := isPath_of_mem_levels levels hlevel
    rcases List.mem_append.mp hown with hown | hown
    · obtain ⟨t, ht, heq⟩ := List.mem_map.mp hown
      have hmakes := makes_setting (levels l hl) hpath ht
      rw [← heq]
      exact ⟨hmakes.fits, fun h => hmakes.feature (List.mem_pair.mpr (.inr h))⟩
    · obtain ⟨hfits, hfeature⟩ := fits_filter (levels l hl) hpath hown
      exact ⟨hfits, by simp [hfeature]⟩

/-- The parameters of a state, without those of the first targets. -/
def allParams (k : Nat) (q : Query) : List Param := (allSettings k q).map fun s => s.2.param s.1

/-- The pairs of a state are grouped into its parameters, none of which holds a blob. -/
theorem group_allParams {q : Query} (root : q.IsRooted) (levels : ∀ l, q.IsLevel l → l.IsWritten)
    (k : Nat) : Param.group ((allParams k q).flatMap Param.pairs) = allParams k q ∧
      ∀ p ∈ allParams k q, p.key ≠ Feature.query.name := by
  have hfits {s : List String × Setting} (hs : s ∈ allSettings k q) := fits_allSettings root levels hs
  constructor
  · refine Param.group_pairs (List.forall_mem_map.mpr fun s hs => ?_) ?_
    · exact ⟨s.2.key_ne_empty s.1, (hfits hs).1.values, (hfits hs).1.texts⟩
    · rw [allParams, List.map_map]
      exact nodup_keys (fun s hs => (hfits hs).1) (nodup_allSettings root levels k)
  · refine List.forall_mem_map.mpr fun s hs hkey => (hfits hs).2 ?_
    have hparts := (hfits hs).1.parts
    have hquery : Param.parts ⟨Feature.query.name, s.2.values⟩ = .ok ⟨.query, [], []⟩ := by
      rw [parts_values]
      rfl
    rw [Setting.param] at hparts hkey
    rw [show s.2.key s.1 = Feature.query.name from hkey, hquery, Except.ok.injEq,
      Param.Parts.mk.injEq] at hparts
    exact hparts.1.symm

end Query
end RecordGraph
