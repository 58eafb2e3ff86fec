import RecordGraph.Proofs.Algebra.Compile
import RecordGraph.Proofs.Query.Reordering

/-!
States that texts describe. Every parameter is an edit that keeps a state well formed, at the root and
below it: pages are not empty, predicates are operators over clauses, and what is taken has a name that
a level can pass through, so that the names which lead to a state are a level of the state.
-/
namespace RecordGraph

/-! Predicates that parameters make -/

/-- Comparisons of a field with a value, negations, and operators over at least two conditions. -/
inductive Value.IsCondition : Value → Prop
  | clause {op : String} (comparison : WhereParam.isComparison op) (field : String)
    (texts : List String) : IsCondition (.node op (.arr [.str field, Scalar.readAll true texts]))
  | not {v : Value} (operand : IsCondition v) : IsCondition (.node "not" v)
  | and {vs : List Value} (two : 2 ≤ vs.length) (operands : ∀ v ∈ vs, IsCondition v) :
    IsCondition (.node "and" (.arr vs))
  | or {vs : List Value} (two : 2 ≤ vs.length) (operands : ∀ v ∈ vs, IsCondition v) :
    IsCondition (.node "or" (.arr vs))

namespace Algebra.Tree

/-- The predicate of a tree whose symbols all stand for conditions. -/
theorem isCondition_predicate {table : Entries Value} {t : Tree} (wide : t.Wide)
    (known : ∀ name ∈ t.names, ∃ v, table.get? name = some v ∧ v.IsCondition) :
    (t.predicate table).IsCondition := by
  induction wide with
  | symbol name =>
    obtain ⟨v, hv, condition⟩ := known name (by simp [names])
    rwa [predicate, hv]
  | not h ih => exact .not (ih known)
  | @and ts two h ih =>
    simp only [names_and, List.forall_mem_flatMap] at known
    rw [predicate_and]
    exact .and (by simpa using two) (List.forall_mem_map.mpr fun t ht => ih t ht (known t ht))
  | @or ts two h ih =>
    simp only [names_or, List.forall_mem_flatMap] at known
    rw [predicate_or]
    exact .or (by simpa using two) (List.forall_mem_map.mpr fun t ht => ih t ht (known t ht))

end Algebra.Tree

theorem WhereParam.isCondition_read {p : WhereParam} {index : Nat} {tag : String} {v : Value}
    (h : p.read index = .ok (.clause tag v)) : v.IsCondition := by
  have clause {field op tag' : String} (h : p.clause field op tag' = .ok (.clause tag v)) :
      v.IsCondition := by
    rw [WhereParam.clause] at h
    split at h
    · cases h
      exact .clause ‹_› field p.values
    · cases h
  rw [WhereParam.read] at h
  split at h
  · split at h <;> cases h
  · exact clause h
  · exact clause h
  · split at h
    · cases h
    · exact clause h
  · cases h

namespace WhereClauses

theorem isCondition_add {found r : WhereClauses} {p : WhereParam} {index : Nat}
    (h : found.add p index = .ok r) (conditions : ∀ c ∈ found.clauses, c.2.IsCondition) :
    ∀ c ∈ r.clauses, c.2.IsCondition := by
  rw [add] at h
  split at h
  · cases h
  · obtain ⟨reading, hread, h⟩ := Except.monad_bind_eq_ok.mp h
    split at h
    · cases h
      exact conditions
    · split at h
      · cases h
      · cases h
        rw [List.forall_mem_append, List.forall_mem_singleton]
        exact ⟨conditions, WhereParam.isCondition_read hread⟩

theorem isCondition_collect {ps : List WhereParam} {index : Nat} {found r : WhereClauses}
    (h : collect ps index found = .ok r) (conditions : ∀ c ∈ found.clauses, c.2.IsCondition) :
    ∀ c ∈ r.clauses, c.2.IsCondition := by
  induction ps generalizing index found with
  | nil =>
    cases h
    exact conditions
  | cons p ps ih =>
    obtain ⟨next, hadd, hrest⟩ := Except.monad_bind_eq_ok.mp h
    exact ih hrest (isCondition_add hadd conditions)

theorem isCondition_combine {op : String} {clauses : List (String × Value)} {v : Value}
    (hop : op = "and" ∨ op = "or") (h : combine op clauses = .ok v)
    (conditions : ∀ c ∈ clauses, c.2.IsCondition) : v.IsCondition := by
  rcases clauses with - | ⟨c, - | ⟨d, clauses⟩⟩
  · cases h
  · cases h
    exact conditions c List.mem_cons_self
  · cases h
    have operands : ∀ v ∈ (c :: d :: clauses).map Prod.snd, v.IsCondition :=
      List.forall_mem_map.mpr conditions
    rcases hop with rfl | rfl
    · exact .and (by simp) operands
    · exact .or (by simp) operands

theorem isCondition_predicate {found : WhereClauses} {v : Value} (h : found.predicate = .ok v)
    (conditions : ∀ c ∈ found.clauses, c.2.IsCondition) : v.IsCondition := by
  rw [predicate] at h
  split at h
  · exact isCondition_combine (.inl rfl) h conditions
  · exact isCondition_combine (.inl rfl) h conditions
  · exact isCondition_combine (.inr rfl) h conditions
  · split at h
    · rename_i hcompile
      cases h
      obtain ⟨tree, hparse, names, rfl⟩ := Algebra.compile_eq_ok.mp hcompile
      refine Algebra.Tree.isCondition_predicate (Algebra.wide_of_parse hparse).normal ?_
      refine Algebra.Tree.names_normal fun name hname => ?_
      obtain ⟨v, hv⟩ := Option.isSome_iff_exists.mp (names name hname)
      exact ⟨v, hv, conditions _ (Entries.mem_of_mem_ofList (Entries.mem_of_get? hv))⟩
    · cases h

end WhereClauses

theorem isCondition_assembleWhere {ps : List WhereParam} {v : Value} (h : assembleWhere ps = .ok v) :
    v.IsCondition := by
  obtain ⟨found, hcollect, hpredicate⟩ := Except.monad_bind_eq_ok.mp h
  exact WhereClauses.isCondition_predicate hpredicate
    (WhereClauses.isCondition_collect hcollect (by simp))

/-! States -/

/-- A name that a level can pass through. -/
def Level.IsName (name : String) : Prop := name ≠ "" ∧ '.' ∉ name.toList

namespace Query

/-- A state as parameters make it, but for the states below. -/
structure Shaped (q : Query) : Prop where
  page : ∀ page size, q.page = some page → page.size = some size → 1 ≤ size
  filter : ∀ v, q.filter = some v → v.IsCondition
  names : ∀ e ∈ q.take.getD [], Level.IsName e.1
  sorted : Entries.Sorted (q.take.getD [])

/-- Also the states below it are such states, and they have no features of the root. -/
inductive Formed : Query → Prop
  | intro {q : Query} (shaped : q.Shaped)
    (below : ∀ name state, (name, .nested state) ∈ q.take.getD [] → state.Formed)
    (rootless : ∀ name state, (name, .nested state) ∈ q.take.getD [] → state.rootFeatures = {}) :
    q.Formed

/-- A state that names lead to from a state, entry by entry. -/
inductive LeadsTo : Query → List String → Query → Prop
  | here (q : Query) : LeadsTo q [] q
  | step {q state inner : Query} {name : String} {names : List String}
    (entry : (name, .nested state) ∈ q.take.getD []) (rest : LeadsTo state names inner) :
    LeadsTo q (name :: names) inner

theorem Formed.shaped {q : Query} (h : q.Formed) : q.Shaped := by
  cases h
  assumption

/-- A state that takes nothing. -/
theorem formed_of_flat {q : Query} (take : q.take = none) (filter : q.filter = none)
    (page : q.page = none) : q.Formed := by
  refine .intro ⟨?_, ?_, ?_, ?_⟩ ?_ ?_
  · simp [page]
  · simp [filter]
  · simp [take]
  · simp [take, Entries.Sorted]
  · simp [take]
  · simp [take]

theorem formed_empty : Formed {} := formed_of_flat rfl rfl rfl

/-- What names lead to is well formed, has no features of the root if it is not the state itself, and
is found at the names. -/
theorem Formed.leadsTo {q state : Query} {names : List String} (h : q.Formed)
    (leads : q.LeadsTo names state) :
    state.Shaped ∧ (names ≠ [] → state.rootFeatures = {}) ∧ (∀ name ∈ names, Level.IsName name) ∧
      q.follow names = some (.state state) := by
  induction leads with
  | here q => exact ⟨h.shaped, fun hne => absurd rfl hne, by simp, rfl⟩
  | @step q state inner name names entry rest ih =>
    cases h with
    | intro shaped below rootless =>
    obtain ⟨hshaped, hroot, hnames, hfollow⟩ := ih (below name state entry)
    refine ⟨hshaped, fun _ => ?_, ?_, ?_⟩
    · cases rest with
      | here => exact rootless name _ entry
      | step => exact hroot (List.cons_ne_nil _ _)
    · exact List.forall_mem_cons.mpr ⟨shaped.names _ entry, hnames⟩
    · have found : q.entry? name = some (.nested state) := Entries.get?_of_mem shaped.sorted.nodup entry
      rw [follow, found]
      exact hfollow

/-! Edits -/

/-- A patch that sets what a state may hold, and takes names as they are. -/
structure Settles (p : Query) : Prop where
  shaped : p.Shaped
  unshaped : p.Unshaped

section merging
variable {existing incoming : Entries Take}

theorem mem_keys_mergeTakes {name : String} (h : name ∈ (mergeTakes existing incoming).keys) :
    name ∈ existing.keys ∨ name ∈ incoming.keys := by
  induction incoming generalizing existing with
  | nil => exact .inl h
  | cons e incoming ih =>
    have cons : name ∈ Entries.keys (e :: incoming) ↔ name = e.1 ∨ name ∈ Entries.keys incoming :=
      List.mem_cons
    rw [cons]
    obtain hmem | hmem := ih h
    · obtain rfl | hmem := Entries.mem_keys_insert.mp hmem
      · exact .inr (.inl rfl)
      · exact .inl hmem
    · exact .inr (.inr hmem)

/-- Names that are taken as they are bring no states. -/
theorem nested_of_mem_mergeTakes (flags : ∀ e ∈ incoming, ∃ taken, e.2 = .flag taken) {name : String}
    {state : Query} (h : (name, .nested state) ∈ mergeTakes existing incoming) :
    (name, .nested state) ∈ existing := by
  induction incoming generalizing existing with
  | nil => exact h
  | cons e incoming ih =>
    obtain ⟨first, t⟩ := e
    rw [List.forall_mem_cons] at flags
    obtain ⟨taken, rfl⟩ : ∃ taken, t = .flag taken := flags.1
    obtain heq | hmem := Entries.mem_of_mem_insert (ih flags.2 h)
    · -- what stands at the name of a flag is the state that stood there
      obtain ⟨rfl, hentry⟩ := Prod.mk.inj heq
      cases hget : existing.get? name with
      | none => simp [hget] at hentry
      | some current =>
        cases current with
        | flag => simp [hget, Take.onto] at hentry
        | nested inner =>
          simp only [hget, Take.onto, Take.nested.injEq] at hentry
          exact hentry ▸ Entries.mem_of_get? hget
    · exact hmem

end merging

theorem Shaped.apply {q p : Query} (hq : q.Shaped) (hp : p.Settles) : (q.apply p true).Shaped := by
  refine ⟨fun page size hpage hsize => ?_, fun v hv => ?_, fun e he => ?_, ?_⟩
  · have merged : mergePage true q.page p.page = some page := by rwa [apply_eq] at hpage
    cases hnew : p.page with
    | none => exact hq.page page size (by rwa [hnew] at merged) hsize
    | some new =>
      cases hold : q.page with
      | none =>
        rw [hnew, hold] at merged
        cases merged
        exact hp.shaped.page page size hnew hsize
      | some old =>
        rw [hnew, hold] at merged
        cases merged
        obtain hsize | ⟨-, hsize⟩ := Option.or_eq_some_iff.mp hsize
        · exact hp.shaped.page new size hnew hsize
        · exact hq.page old size hold hsize
  · have chosen : p.filter.or q.filter = some v := by rwa [apply_eq] at hv
    obtain hv | ⟨-, hv⟩ := Option.or_eq_some_iff.mp chosen
    · exact hp.shaped.filter v hv
    · exact hq.filter v hv
  · cases htake : p.take with
    | none => exact hq.names e (by rwa [take_apply, htake] at he)
    | some incoming =>
      rw [take_apply_unshaped hp.unshaped htake, Option.getD_some] at he
      have known := hp.shaped.names
      rw [htake, Option.getD_some] at known
      obtain hmem | hmem := mem_keys_mergeTakes (List.mem_map_of_mem he)
      · obtain ⟨f, hf, hname⟩ := List.mem_map.mp hmem
        exact hname ▸ hq.names f hf
      · obtain ⟨f, hf, hname⟩ := List.mem_map.mp hmem
        exact hname ▸ known f hf
  · cases htake : p.take with
    | none => rw [take_apply, htake]; exact hq.sorted
    | some incoming =>
      rw [take_apply_unshaped hp.unshaped htake]
      exact sorted_mergeTakes hq.sorted

theorem Formed.apply {q p : Query} (hq : q.Formed) (hp : p.Settles) : (q.apply p true).Formed := by
  have same {name : String} {state : Query}
      (h : (name, .nested state) ∈ (q.apply p true).take.getD []) :
      (name, .nested state) ∈ q.take.getD [] := by
    cases htake : p.take with
    | none => rwa [take_apply, htake] at h
    | some incoming =>
      rw [take_apply_unshaped hp.unshaped htake, Option.getD_some] at h
      exact nested_of_mem_mergeTakes (hp.unshaped _ htake).2 h
  cases hq with
  | intro shaped below rootless =>
  exact .intro (shaped.apply hp) (fun name state h => below name state (same h))
    fun name state h => rootless name state (same h)

theorem Formed.under {q : Query} (h : q.Formed) (name : String) :
    (q.under name).Formed ∧ (q.under name).rootFeatures = {} := by
  rw [Query.under]
  cases hentry : q.entry? name with
  | none => exact ⟨formed_empty, rfl⟩
  | some t =>
    cases t with
    | flag => exact ⟨formed_empty, rfl⟩
    | nested state =>
      cases h with
      | intro shaped below rootless =>
      have entry := Entries.mem_of_get? hentry
      exact ⟨below name state entry, rootless name state entry⟩

/-- An edit at a level keeps the states above it and those beside its way. -/
theorem Formed.modify {f : Query → Query} (hf : ∀ q, Formed q → (f q).Formed) {names : List String}
    (plain : ∀ name ∈ names, Level.IsName name)
    (leveled : names ≠ [] → ∀ q, (f q).rootFeatures = q.rootFeatures) {q : Query} (hq : q.Formed) :
    (modify f names q).Formed := by
  induction names generalizing q with
  | nil => exact hf q hq
  | cons name rest ih =>
    rw [List.forall_mem_cons] at plain
    have kept := leveled (List.cons_ne_nil _ _)
    obtain ⟨hunder, hroot⟩ := hq.under name
    have hinner : (Query.modify f rest (q.under name)).Formed := ih plain.2 (fun _ => kept) hunder
    have hinnerRoot : (Query.modify f rest (q.under name)).rootFeatures = {} := by
      rw [← hroot]
      cases rest with
      | nil => exact kept _
      | cons => rfl
    cases hq with
    | intro shaped below rootless =>
    have entries {e : String × Take} (h : e ∈ ((Query.modify f (name :: rest) q).take.getD [])) :
        e = (name, .nested (Query.modify f rest (q.under name))) ∨ e ∈ q.take.getD [] :=
      Entries.mem_of_mem_insert h
    refine .intro ⟨shaped.page, shaped.filter, fun e he => ?_, shaped.sorted.insert⟩ ?_ ?_
    · obtain rfl | he := entries he
      · exact plain.1
      · exact shaped.names e he
    · intro other state h
      obtain heq | h := entries h
      · cases heq
        exact hinner
      · exact below other state h
    · intro other state h
      obtain heq | h := entries h
      · cases heq
        exact hinnerRoot
      · exact rootless other state h

/-- An edit that parameters can make. -/
structure IsSetting (e : Edit) : Prop where
  settles : e.2.Settles
  plain : ∀ name ∈ e.1, Level.IsName name
  leveled : e.1 ≠ [] → e.2.rootFeatures = {}

theorem Formed.edit {q : Query} (hq : q.Formed) {e : Edit} (he : IsSetting e) : (q.edit e).Formed :=
  hq.modify (fun _ hstate => hstate.apply he.settles) he.plain fun hne => rootFeatures_apply (he.leveled hne)

end Query

/-! Parameters -/

theorem Names.isName_take (texts : List String) : ∀ e ∈ Names.take texts, Level.IsName e.1 := by
  have plain {s name : String} (h : name ∈ split s) : name ≠ "" ∧ '.' ∉ name.toList := by
    obtain ⟨hmem, hfilled⟩ := List.mem_filter.mp h
    obtain ⟨cs, hcs, rfl⟩ := List.mem_map.mp hmem
    refine ⟨by simpa using hfilled, fun hdot => ?_⟩
    rw [String.toList_ofList] at hdot
    exact absurd (Text.mem_cut hcs '.' hdot) (by decide)
  intro e he
  obtain ⟨name, hname, hentry⟩ := List.mem_filterMap.mp (Entries.mem_of_mem_ofList he)
  obtain ⟨text, -, hsplit⟩ := List.mem_flatMap.mp hname
  obtain ⟨filled, undotted⟩ := plain hsplit
  rw [takeEntry] at hentry
  split at hentry
  · rename_i rest hrest
    split at hentry
    · cases hentry
    · rename_i hne
      cases hentry
      rw [Text.afterChar?_eq_some.mp hrest, List.mem_cons, not_or] at undotted
      exact ⟨by simpa using hne, undotted.2⟩
  · cases hentry
    exact ⟨filled, undotted⟩

theorem Level.isName_ofText? (s : Option String) : ∀ name ∈ (Level.ofText? s).names, IsName name := by
  intro name hname
  obtain ⟨hmem, filled⟩ := List.mem_filter.mp hname
  refine ⟨by simpa using filled, ?_⟩
  cases s with
  | none => cases hmem
  | some s =>
    rw [Level.ofText?] at hmem
    split at hmem
    · cases hmem
    · exact Text.not_mem_of_mem_pieces hmem

namespace Param
variable {p : Param}

theorem page_positive {subkeys : List String} {page : Page} (h : p.page subkeys = .ok page) {size : UInt64}
    (hsize : page.size = some size) : 1 ≤ size := by
  obtain ⟨value, -, h⟩ := Except.monad_bind_eq_ok.mp h
  split at h
  · cases h
    cases hsize
  · cases h
    cases hsize
  · split at h
    · rename_i n hn
      cases h
      cases hsize
      have positive : 0 < size := by simpa using (Option.filter_eq_some_iff.mp hn).2
      rw [UInt64.le_iff_toNat_le]
      exact UInt64.lt_iff_toNat_lt.mp positive
    · cases h
  · cases h

theorem settles_of_patch {feature : Feature} {subkeys : List String} {r : Query}
    (h : p.patch feature subkeys = .ok r) : r.Settles := by
  have sets := sets_of_patch h
  refine ⟨?_, sets.unshaped⟩
  cases feature with
  | page =>
    obtain ⟨page, hpage, ⟨⟩⟩ := Except.monad_bind_eq_ok.mp h
    refine ⟨fun _ size heq hsize => ?_, by simp, by simp, by simp [Entries.Sorted]⟩
    cases heq
    exact page_positive hpage hsize
  | take =>
    obtain ⟨_, -, ⟨⟩⟩ := Except.monad_bind_eq_ok.mp h
    exact ⟨by simp, by simp, Names.isName_take p.values, Entries.sorted_ofList _⟩
  | filter =>
    cases h
    exact Query.formed_empty.shaped
  | _ =>
    have only := sets.only
    exact (Query.formed_of_flat (only.take (by decide)) (only.filter (by decide))
      (only.page (by decide))).shaped

theorem isName_of_parts {parts : Parts} (h : p.parts = .ok parts) :
    ∀ name ∈ parts.level.names, Level.IsName name := by
  rw [Param.parts] at h
  split at h
  · cases h
  · cases h
    exact Level.isName_ofText? _

/-- Patches of leveled features set none of the root. -/
theorem Sets.rootFeatures {feature : Feature} {subkeys : List String} {r : Query}
    (sets : Sets feature subkeys r) (leveled : feature.isLeveled) : r.rootFeatures = {} := by
  cases sets <;> first | rfl | cases leveled

theorem isSetting_of_edit {e : Edit} (h : p.edit = .ok e) : Query.IsSetting e := by
  obtain ⟨parts, hparts, h⟩ := Except.bind_eq_ok.mp h
  obtain ⟨patch, hpatch, rfl⟩ := Except.map_eq_ok.mp h
  refine ⟨settles_of_patch hpatch, ?_, fun hne => ?_⟩
  · dsimp only
    split
    · simp
    · exact isName_of_parts hparts
  · refine (sets_of_patch hpatch).rootFeatures ?_
    by_contra root
    rw [Bool.not_eq_true] at root
    rw [level_of_parts hparts root, Level.names, List.filter_nil, ite_self] at hne
    exact hne rfl

theorem isSetting_filter {v : Value} (condition : v.IsCondition) {ps : List Param} {level : Level}
    (hlevel : level ∈ whereLevels ps) : Query.IsSetting (level.names, { filter := some v }) := by
  obtain ⟨p, -, w, hw⟩ := mem_whereLevels.mp hlevel
  delta whereParam? at hw
  split at hw
  · rename_i hparts
    cases hw
    have shaped : Query.Shaped { filter := some v } := by
      refine ⟨by simp, fun w hw => ?_, by simp, by simp [Entries.Sorted]⟩
      cases hw
      exact condition
    have unshaped : Query.Unshaped { filter := some v } := by
      rintro _ ⟨⟩
    exact ⟨⟨shaped, unshaped⟩, isName_of_parts hparts, fun _ => rfl⟩
  · cases hw

/-- Parameters keep a state well formed. -/
theorem formed_applyAll {q r : Query} {ps : List Param} (hq : q.Formed) (h : applyAll q ps = .ok r) :
    r.Formed := by
  rw [applyAll_eq] at h
  obtain ⟨set, hset, h⟩ := Except.bind_eq_ok.mp h
  have hset : set.Formed := by
    refine Except.foldlM_preserves (fun p _ b c hb hp => ?_) hq hset
    rw [apply_eq_edit] at hp
    obtain ⟨e, he, rfl⟩ := Except.map_eq_ok.mp hp
    exact hb.edit (isSetting_of_edit he)
  refine Except.foldlM_preserves (fun level hlevel b c hb hc => ?_) hset h
  obtain ⟨v, hv, rfl⟩ := Except.map_eq_ok.mp hc
  exact hb.edit (isSetting_filter (isCondition_assembleWhere hv) hlevel)

end Param

/-! Texts -/

theorem Root.formed_address {root : Root} {segments : List String} {q : Query}
    (h : root.address root.query segments = some q) : q.Formed := by
  have flat : q.take = none ∧ q.filter = none ∧ q.page = none := by
    unfold Root.address at h
    split at h
    · cases h
      cases root <;> exact ⟨rfl, rfl, rfl⟩
    all_goals
      cases h
    all_goals
      exact ⟨rfl, rfl, rfl⟩
  exact Query.formed_of_flat flat.1 flat.2.1 flat.2.2

namespace Query

/-- A text that spells a state out: it is no blob, and has none for a parameter. -/
structure IsSpelledOut (text : String) : Prop where
  path : decodeState (Text.trimChar '/' (Text.trim text)) = none
  params : ∀ path params, Text.pieces '?' (Text.trim text) = [path, params] →
    ∀ p ∈ Param.group (Text.Form.decode params), p.key ≠ Feature.query.name

theorem formed_ofPathAndParams {root : Root} {path params : String} {q : Query}
    (h : ofPathAndParams root path params = .ok q)
    (spelled : ∀ p ∈ Param.group (Text.Form.decode params), p.key ≠ Feature.query.name) : q.Formed := by
  rw [ofPathAndParams] at h
  cases haddress : root.address root.query ((Text.pieces '/' path).filter fun s => !s.isEmpty) with
  | none =>
    rw [haddress] at h
    cases h
  | some addressed =>
    have hfind : (Param.group (Text.Form.decode params)).find? (fun p => p.key == Feature.query.name) =
        none := by
      rw [List.find?_eq_none]
      intro p hp
      simpa using spelled p hp
    rw [haddress] at h
    simp only [hfind] at h
    exact Param.formed_applyAll (Root.formed_address haddress) h

theorem formed_decode {root : Root} {text : String} {q : Query} (spelled : IsSpelledOut text)
    (h : decode root text = .ok q) : q.Formed := by
  rw [decode] at h
  simp only [spelled.path] at h
  split at h
  · have empty : Param.group (Text.Form.decode "") = [] := by decide +kernel
    exact formed_ofPathAndParams h (by simp [empty])
  · rename_i path params hpieces
    exact formed_ofPathAndParams h (spelled.params path params hpieces)
  · cases h

theorem names_ofText_join {names : List String} (plain : ∀ name ∈ names, Level.IsName name) :
    (Level.ofText (Text.join "." names)).names = names := by
  by_cases hnil : names = []
  · subst hnil
    rfl
  · have filled : "" ∉ names := fun hmem => (plain _ hmem).1 rfl
    rw [Level.ofText, Text.pieces_join rfl hnil fun name hname => (plain name hname).2]
    exact Param.names_of_filled filled

/-- Of a state that a text spells out, the state itself and all states below it are well formed: pages
have a size of one at least, predicates are operators over clauses, the names that are taken are names
a level can pass through, and what belongs to the root is at the root. So the names that lead to a
state, joined by points, are its level. -/
theorem decode_wellFormed {root : Root} {text : String} {q : Query} (spelled : IsSpelledOut text)
    (h : decode root text = .ok q) :
    ∀ names state, q.LeadsTo names state →
      (∀ page size, state.page = some page → page.size = some size → 1 ≤ size) ∧
      (∀ v, state.filter = some v → v.IsCondition) ∧
      (∀ e ∈ state.take.getD [], e.1 ≠ "" ∧ '.' ∉ e.1.toList) ∧
      (names ≠ [] → state.rootFeatures = {}) ∧
      q.at? (Level.ofText (Text.join "." names)) = some (.state state) := by
  intro names state leads
  obtain ⟨shaped, rootless, plain, found⟩ := (formed_decode spelled h).leadsTo leads
  refine ⟨shaped.page, shaped.filter, shaped.names, rootless, ?_⟩
  rw [at?, names_ofText_join plain]
  exact found

/-- The name of the author is a state below the posts, with the condition that is asked there. -/
theorem decode_wellFormed_posts :
    let text := "posts?take=title&page:size=10&where.author:age:<:young=30&where.author=not young"
    ∃ q, IsSpelledOut text ∧ decode .server text = .ok q ∧ q.page = some { size := some 10 } ∧
      q.LeadsTo ["author"] (q.under "author") ∧ (q.under "author").filter.isSome ∧
      (∀ v, (q.under "author").filter = some v → v.IsCondition) ∧
      q.at? (Level.ofText "author") = some (.state (q.under "author")) := by
  intro text
  have cut : Text.pieces '?' (Text.trim text) =
      ["posts", "take=title&page:size=10&where.author:age:<:young=30&where.author=not young"] := by
    decide +kernel
  have spelled : IsSpelledOut text := by
    refine ⟨decodeState_eq_none (c := '?') ?_ (by decide) (by decide) (by decide), ?_⟩
    · decide +kernel
    · intro path params hpieces
      cases cut.symm.trans hpieces
      decide +kernel
  have reads : (decode .server text).toOption.isSome := by decide +kernel
  obtain ⟨q, hq⟩ := Except.isSome_toOption.mp reads
  have shape : (decode .server text).toOption.all (fun q => q.page = some { size := some 10 } &&
      (q.entry? "author").any fun t => t.stateOrEmpty.filter.isSome) := by
    decide +kernel
  rw [hq, Except.toOption, Option.all_some, Bool.and_eq_true, decide_eq_true_eq] at shape
  obtain ⟨hpage, hentry⟩ := shape
  cases hauthor : q.entry? "author" with
  | none =>
    rw [hauthor] at hentry
    cases hentry
  | some t =>
    cases t with
    | flag =>
      rw [hauthor] at hentry
      cases hentry
    | nested state =>
      rw [hauthor] at hentry
      have hstate := under_of_nested hauthor
      have leads : q.LeadsTo ["author"] (q.under "author") :=
        .step (hstate ▸ Entries.mem_of_get? hauthor) (.here _)
      obtain ⟨-, condition, -, -, found⟩ := decode_wellFormed spelled hq _ _ leads
      exact ⟨q, spelled, hq, hpage, leads, hstate ▸ hentry, condition, found⟩

end Query
end RecordGraph
