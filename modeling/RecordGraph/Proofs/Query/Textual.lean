import RecordGraph.Proofs.Query.Keys
import RecordGraph.Proofs.Query.Querystring
import RecordGraph.Proofs.Value.Same

/-!
States are read back from their textual form. A state whose features can all be written as parameters is
rendered as a path and parameters, and these are read as the state again, so no blob is needed.
-/
namespace RecordGraph

/-! Equality of a state with itself -/

theorem sameFilter_refl (v : Option Value) : sameFilter v v := by
  cases v with
  | none => rfl
  | some v => exact v.same_refl

theorem sameMap_refl (es : Option (Entries Value)) : sameMap es es := by
  cases es with
  | none => rfl
  | some es => exact Value.sameEntries_refl es

theorem sameTakes_refl {ts : List (String × Take)}
    (h : ∀ name state, (name, Take.nested state) ∈ ts → state.same state) : sameTakes ts ts := by
  induction ts with
  | nil => rw [sameTakes]
  | cons e ts ih =>
    obtain ⟨name, t⟩ := e
    have ht : t.same t := by
      cases t with
      | flag taken => rw [Take.same, beq_self_eq_true]
      | nested state => rw [Take.same, h name state List.mem_cons_self]
    rw [sameTakes, ht, ih fun name state hmem => h name state (List.mem_cons_of_mem _ hmem),
      beq_self_eq_true]
    rfl

theorem Query.same_refl (q : Query) : q.same q := by
  induction q using Query.inductionOn with
  | step q ih =>
    obtain ⟨space, resource, record, field, action, inspect, take, filter, sort, page, group⟩ := q
    have htake : sameTake take take := by
      cases take with
      | none => rw [sameTake]
      | some ts => rw [sameTake, sameTakes_refl (ih ts rfl)]
    simp [Query.same, sameMap_refl, sameFilter_refl, htake]

namespace Query

/-- A state whose features, at all levels, parameters can write. -/
structure IsCanonical (q : Query) : Prop where
  root : q.IsRooted
  levels : ∀ l, q.IsLevel l → l.IsWritten

/-- The characters of a segment: letters, digits and four marks. -/
theorem mem_isPathSafe {s : String} (h : isPathSafe s) :
    s ≠ "" ∧ ∀ c ∈ s.toList, c ≠ '/' ∧ c ≠ '?' ∧ Text.isBlank c = false := by
  simp only [isPathSafe, Bool.and_eq_true, String.all_bool_eq, List.all_eq_true, Bool.or_eq_true,
    beq_iff_eq] at h
  refine ⟨by simpa using h.1, fun c hc => ?_⟩
  rcases h.2 c hc with (((hc | rfl) | rfl) | rfl) | rfl
  · refine ⟨?_, ?_, (Algebra.visible_of_isWordChar (by simp [Algebra.isWordChar, hc])).1⟩
    · rintro rfl
      cases hc
    · rintro rfl
      cases hc
  all_goals decide

/-- The characters of a path are no white space and no question marks. -/
theorem mem_pathText {path : List String} (safe : ∀ s ∈ path, isPathSafe s) {c : Char}
    (h : c ∈ ("/" ++ Text.join "/" path).toList) : Text.isBlank c = false ∧ c ≠ '?' := by
  have hslash {c : Char} (hc : c ∈ "/".toList) : Text.isBlank c = false ∧ c ≠ '?' := by
    rw [show c = '/' by simpa using hc]
    decide
  rw [String.toList_append, List.mem_append] at h
  rcases h with h | h
  · exact hslash h
  · rcases Text.mem_join h with h | ⟨s, hs, h⟩
    · exact hslash h
    · obtain ⟨-, hquestion, hblank⟩ := (mem_isPathSafe (safe s hs)).2 c h
      exact ⟨hblank, hquestion⟩

/-- A path and parameters are read into the parameters of what the path addresses. -/
theorem ofPathAndParams_eq {path : List String} (safe : ∀ s ∈ path, isPathSafe s) {r : Query}
    (address : Root.server.address {} path = some r) {pairs : List (String × String)}
    {params : List Param} (group : Param.group pairs = params)
    (textual : ∀ p ∈ params, p.key ≠ Feature.query.name) :
    ofPathAndParams .server ("/" ++ Text.join "/" path) (String.ofList (Text.Form.encode pairs)) =
      Param.applyAll r params := by
  have hsegments : (Text.pieces '/' ("/" ++ Text.join "/" path)).filter (fun s => !s.isEmpty) = path := by
    cases path with
    | nil => decide
    | cons s rest =>
      have hpieces : Text.pieces '/' ("/" ++ Text.join "/" (s :: rest)) = "" :: s :: rest := by
        rw [Text.pieces_of_append (s := "") (t := Text.join "/" (s :: rest)) (by simp) (by simp),
          Text.pieces_join rfl (by simp) fun s hs hslash => (mem_isPathSafe (safe s hs)).2 _ hslash |>.1 rfl]
      rw [hpieces, List.filter_cons_of_neg (by simp), List.filter_eq_self]
      exact fun s hs => by simpa using (mem_isPathSafe (safe s hs)).1
  have hfind : params.find? (fun p => p.key == Feature.query.name) = none := by
    rw [List.find?_eq_none]
    exact fun p hp => by simpa using textual p hp
  rw [ofPathAndParams, hsegments, Root.query, address]
  dsimp only
  rw [Text.Form.decode_encode, group, hfind]

/-- Without the slash before it a path has none at its ends. -/
theorem trimChar_path {path : List String} (safe : ∀ s ∈ path, isPathSafe s) :
    Text.trimChar '/' ("/" ++ Text.join "/" path) = Text.join "/" path := by
  have hslash {s : String} (hs : s ∈ path) {c : Char} (hc : c ∈ s.toList) : (c == '/') = false :=
    beq_false_of_ne ((mem_isPathSafe (safe s hs)).2 c hc).1
  have hfilled {s : String} (hs : s ∈ path) : s.toList ≠ [] := by
    simpa using (mem_isPathSafe (safe s hs)).1
  have hlist : ("/" ++ Text.join "/" path).toList = '/' :: (Text.join "/" path).toList := by simp
  rw [Text.trimChar, hlist, Text.trimBoth_cons (by decide), Text.trimBoth_eq_self, String.ofList_toList]
  · intro c hc
    cases path with
    | nil => simp [Text.join] at hc
    | cons s rest =>
      rw [Text.toList_join_cons, List.head?_append_of_ne_nil _ (hfilled List.mem_cons_self)] at hc
      exact hslash List.mem_cons_self (List.mem_of_head? hc)
  · intro c hc
    rcases List.eq_nil_or_concat' path with rfl | ⟨before, s, rfl⟩
    · simp [Text.join] at hc
    · have hs : s ∈ before ++ [s] := by simp
      refine hslash hs (List.mem_of_getLast? ?_)
      cases before with
      | nil => simpa [Text.join] using hc
      | cons t before =>
        rwa [Text.join_concat (List.cons_ne_nil _ _), String.toList_append,
          List.getLast?_append_of_ne_nil _ (hfilled hs)] at hc

/-- A rendered text is read into its path and its parameters. -/
theorem parse_rendered {path : List String} (safe : ∀ s ∈ path, isPathSafe s) {r : Query}
    (address : Root.server.address {} path = some r) (blob : decodeState (Text.join "/" path) = none)
    {pairs : List (String × String)} {params : List Param} (group : Param.group pairs = params)
    (textual : ∀ p ∈ params, p.key ≠ Feature.query.name) :
    parse (if pairs.isEmpty then "/" ++ Text.join "/" path
      else "/" ++ Text.join "/" path ++ "?" ++ String.ofList (Text.Form.encode pairs)) =
      Param.applyAll r params := by
  have hpath {c : Char} := mem_pathText safe (c := c)
  have hread := ofPathAndParams_eq safe address group textual
  have htrim {text : String} (h : ∀ c ∈ text.toList, Text.isBlank c = false) : Text.trim text = text := by
    rw [Text.trim, Text.trimBoth_eq_self, String.ofList_toList]
    · exact fun c hc => h c (List.mem_of_head? hc)
    · exact fun c hc => h c (List.mem_of_getLast? hc)
  split
  · rename_i hempty
    obtain rfl := List.isEmpty_iff.mp hempty
    rw [parse, decode, htrim fun c hc => (hpath hc).1, trimChar_path safe, blob,
      Text.pieces_of_not_mem fun h => (hpath h).2 rfl]
    exact hread
  · obtain ⟨first, hfirst⟩ : ∃ text, "/" ++ Text.join "/" path = text := ⟨_, rfl⟩
    rw [hfirst] at hpath hread ⊢
    have hlist : (first ++ "?" ++ String.ofList (Text.Form.encode pairs)).toList =
        first.toList ++ '?' :: Text.Form.encode pairs := by simp
    have hvisible : ∀ c ∈ (first ++ "?" ++ String.ofList (Text.Form.encode pairs)).toList,
        Text.isBlank c = false := by
      intro c hc
      rw [hlist, List.mem_append, List.mem_cons] at hc
      rcases hc with hc | rfl | hc
      · exact (hpath hc).1
      · decide
      · exact (Text.Form.mem_encode hc).1
    have hnone : decodeState (Text.trimChar '/' (first ++ "?" ++ String.ofList (Text.Form.encode pairs))) =
        none := by
      refine decodeState_eq_none (c := '?') ?_ (by decide) (by decide) (by decide)
      rw [Text.trimChar, String.toList_ofList]
      exact Text.mem_trimBoth (by simp) (by decide)
    have hpieces : Text.pieces '?' (first ++ "?" ++ String.ofList (Text.Form.encode pairs)) =
        [first, String.ofList (Text.Form.encode pairs)] := by
      rw [Text.pieces_of_append (s := first) (t := String.ofList (Text.Form.encode pairs)) (by simp)
        fun h => (hpath h).2 rfl, Text.pieces_of_not_mem]
      rw [String.toList_ofList]
      exact fun h => (Text.Form.mem_encode h).2 rfl
    rw [parse, decode, htrim hvisible, hnone, hpieces]
    exact hread

theorem allParams_eq (k : Nat) (q : Query) :
    allParams k q = ((rootSettings k q).map fun s => s.1.param []) ++ q.params := by
  rw [allParams, allSettings, List.map_append, List.map_map]
  rfl

/-- The parameters of a state, applied to what its path addresses, make the state. -/
theorem applyAll_allParams {q r : Query} (h : q.IsCanonical) {k : Nat}
    (root : r.edited ((rootSettings k q).map fun s => ([], s.2)) = q.rootFeatures) :
    Param.applyAll r (allParams k q) = .ok q := by
  have hmakes : ∀ s ∈ rootSettings k q, Makes [] s.1 s.2 := fun s hs => makes_root h.root hs
  have happly : (allParams k q).foldlM Param.apply r =
      .ok (q.rootFeatures.edited (atLevels settingPatches q)) := by
    rw [allParams_eq, List.foldlM_append, foldlM_settings hmakes, root, Except.monad_bind, Except.ok_bind,
      foldlM_params h.levels]
  have hwheres : Param.wheres (allParams k q) = q.blocks := by
    have hroot : ((rootSettings k q).map fun s => s.1.param []).filterMap Param.whereParam? = [] := by
      rw [List.filterMap_map, List.filterMap_eq_nil_iff]
      intro s hs
      rw [Function.comp_apply, whereParam?_eq (hmakes s hs).fits, if_neg]
      exact fun hfilter => (hmakes s hs).feature (List.mem_pair.mpr (.inl hfilter))
    rw [← wheres_params h.levels, Param.wheres, Param.wheres, allParams_eq, List.filterMap_append, hroot,
      List.nil_append]
  have hedits : (q.rootFeatures.edited (atLevels settingPatches q)).edited (atLevels filterPatches q) = q := by
    rw [edited, edited, ← List.foldl_append, ← edits]
    exact edited_edits h.levels
  have hblocks := foldlM_blocks h.levels (q.rootFeatures.edited (atLevels settingPatches q))
  rw [hedits] at hblocks
  rw [Param.applyAll, happly, Except.monad_bind, Except.ok_bind, hwheres]
  exact hblocks

/-- A state whose features parameters can write, and whose path is no blob, is rendered as a text that is
read as the state; this text is its querystring. -/
theorem parse_canonical {q : Query} (h : q.IsCanonical)
    (blob : decodeState (Text.join "/" q.path) = none) :
    ∃ text, q.render = some text ∧ q.toQuerystring = text ∧ parse text = .ok q := by
  obtain ⟨k, hk, hpath, hsafe, hrender⟩ := render_eq h.root h.levels
  obtain ⟨r, haddress, hroot⟩ := edited_root h.root hk hpath
  have hpairs : settingPairs [] ((rootSettings k q).map Prod.fst) ++ levelPairs [] q =
      (allParams k q).flatMap Param.pairs := by
    rw [allParams_eq, List.flatMap_append, settingPairs, levelPairs, params, List.flatMap_map,
      List.flatMap_map, List.flatMap_map]
    simp only [List.nil_append]
  obtain ⟨hgroup, htextual⟩ := group_allParams h.root h.levels k
  have hparse := parse_rendered hsafe haddress blob hgroup htextual
  rw [applyAll_allParams h hroot, ← hpairs] at hparse
  refine ⟨_, hrender, ?_, hparse⟩
  rw [toQuerystring, hrender]
  dsimp only
  rw [hparse]
  dsimp only
  rw [if_pos q.same_refl]

/-- The first ten open posts that do not score above three, with their titles and authors. -/
def openPosts : Query :=
  { space := some "blog.v2", resource := some "posts"
    take := some [("author", .nested { sort := some ["-name"] }), ("title", .flag true)]
    filter := some (.node "and" (.arr [.node "=" (.arr [.str "status", .str "open"]),
      .node "not" (.node ">" (.arr [.str "score", .nat 3]))]))
    page := some { size := some 10 }
    group := some [("score", .obj [("by", .str "day")])] }

theorem isFilter_openPosts : (Value.node "and" (.arr [.node "=" (.arr [.str "status", .str "open"]),
    .node "not" (.node ">" (.arr [.str "score", .nat 3]))])).IsFilter := by
  have hfield {field : String} (h : field ∈ ["status", "score"]) : isFieldPath field := by
    rw [isFieldPath, String.all_bool_eq]
    revert field
    decide
  have hopen : (Value.node "=" (.arr [.str "status", .str "open"])).IsClause :=
    ⟨⟨"status", "=", .str "open"⟩,
      ⟨by decide, hfield (by decide), .scalar ⟨"open", rfl, by decide, rfl⟩⟩, rfl⟩
  have hscore : (Value.node ">" (.arr [.str "score", .nat 3])).IsClause :=
    ⟨⟨"score", ">", .nat 3⟩, ⟨by decide, hfield (by decide), .scalar ⟨"3", rfl, by decide, rfl⟩⟩, rfl⟩
  refine .inl (.inr ⟨_, by decide, ?_, rfl⟩)
  simp only [List.forall_mem_cons]
  exact ⟨.inl (.inl hopen), .inl (.inr ⟨_, hscore, rfl⟩), fun _ h => absurd h List.not_mem_nil⟩

theorem isKeySafe_openPosts (name : String) (h : name ∈ ["author", "title", "name", "score", "by"]) :
    isKeySafe name := by
  rw [isKeySafe, String.all_bool_eq]
  revert name
  decide

theorem isWritten_author : IsWritten { sort := some ["-name"] } where
  take _ h := nomatch h
  nested _ h := nomatch h
  sort := by
    rintro _ ⟨⟩
    refine ⟨by decide, ?_⟩
    simp only [List.forall_mem_singleton]
    exact isKeySafe_openPosts "name" (by decide)
  page _ h := nomatch h
  group _ h := nomatch h
  filter _ h := nomatch h

/-- Only the authors are a level of their own. -/
theorem nested_openPosts {ts : List (String × Take)} (take : openPosts.take = some ts) {name : String}
    {state : Query} (h : (name, Take.nested state) ∈ ts) : state = { sort := some ["-name"] } := by
  obtain rfl := Option.some.inj take
  have hauthor : name = "author" ∧ state = { sort := some ["-name"] } := by simpa using h
  exact hauthor.2

theorem isWritten_openPosts : openPosts.IsWritten where
  take := by
    rintro _ ⟨⟩
    refine ⟨by simp, List.pairwise_pair.mpr (by decide), ?_⟩
    simp only [List.forall_mem_cons]
    exact ⟨isKeySafe_openPosts _ (by decide), isKeySafe_openPosts _ (by decide),
      fun _ h => absurd h List.not_mem_nil⟩
  nested ts hts name state hmem := by
    rw [nested_openPosts hts hmem]
    exact ⟨rfl, by rintro ⟨⟩⟩
  sort _ h := nomatch h
  page := by
    rintro _ ⟨⟩
    exact ⟨by decide, by decide, by decide⟩
  group := by
    have hday : Scalar.Settled (.str "day") := ⟨"day", rfl, by decide, rfl⟩
    rintro _ ⟨⟩
    refine .map (by simp) (List.pairwise_singleton _ _) ?_ ?_
    · simpa using isKeySafe_openPosts "score" (by decide)
    · rw [List.forall_mem_singleton]
      refine .map (by simp) (List.pairwise_singleton _ _) ?_ ?_
      · simpa using isKeySafe_openPosts "by" (by decide)
      · simpa using Value.IsBranch.leaf (.scalar hday)
  filter := by
    rintro _ ⟨⟩
    exact isFilter_openPosts

theorem isCanonical_openPosts : openPosts.IsCanonical := by
  refine ⟨⟨by decide, fun _ h => nomatch h⟩, fun l hl => ?_⟩
  cases hl with
  | self => exact isWritten_openPosts
  | nested take mem level =>
    rw [nested_openPosts take mem] at level
    cases level with
    | self => exact isWritten_author
    | nested take => cases take

theorem path_openPosts : openPosts.path = ["blog.v2", "posts"] := by
  have hsafe {s : String} (h : s ∈ ["blog.v2", "posts"]) : isPathSafe s := by
    rw [isPathSafe, String.all_bool_eq]
    revert s
    decide
  simp [path, targets, openPosts, writeTargets, hsafe]

theorem parse_openPosts : openPosts.IsCanonical ∧ decodeState (Text.join "/" openPosts.path) = none ∧
    ∃ text, openPosts.render = some text ∧ openPosts.toQuerystring = text ∧
      parse text = .ok openPosts := by
  have hblob : decodeState (Text.join "/" openPosts.path) = none := by
    rw [path_openPosts]
    exact decodeState_eq_none (c := '.') (by decide) (by decide) (by decide) (by decide)
  exact ⟨isCanonical_openPosts, hblob, parse_canonical isCanonical_openPosts hblob⟩

end Query
end RecordGraph
