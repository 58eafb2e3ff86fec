import Mathlib.Data.List.Find
import Mathlib.Data.List.Pairwise
import RecordGraph.Proofs.Query.Commuting
import RecordGraph.Proofs.Query.Gathering
import RecordGraph.Proofs.Query.Querystring

/-!
Parameters in any order. Each parameter is one edit, or none that can be made, whatever the state; edits
of different slots commute, so parameters that keep out of each other's way make one state in any order.
-/
namespace RecordGraph
open Value (leafMap)

/-! Patches of one feature -/

/-- Features that are merged into what is there, and not put in its place. -/
def Feature.isMerged : Feature → Bool
  | .inspect | .page | .group => true
  | _ => false

namespace Query

/-- The patch sets one feature at most. -/
structure Only (feature : Feature) (p : Query) : Prop where
  space : feature ≠ .space → p.space = none
  resource : feature ≠ .resource → p.resource = none
  record : feature ≠ .record → p.record = none
  field : feature ≠ .field → p.field = none
  action : feature ≠ .action → p.action = none
  inspect : feature ≠ .inspect → p.inspect = none
  take : feature ≠ .take → p.take = none
  filter : feature ≠ .filter → p.filter = none
  sort : feature ≠ .sort → p.sort = none
  page : feature ≠ .page → p.page = none
  group : feature ≠ .group → p.group = none

variable {feature other : Feature} {p r : Query}

/-- Patches of two features, or of one that merges them in either order. -/
theorem Only.apart (hp : p.Only feature) (hr : r.Only other) (merged : feature = other → feature.isMerged)
    (inspect : ∀ es, mergeMap true (mergeMap true es p.inspect) r.inspect =
      mergeMap true (mergeMap true es r.inspect) p.inspect)
    (page : ∀ page, mergePage true (mergePage true page p.page) r.page =
      mergePage true (mergePage true page r.page) p.page)
    (group : ∀ es, mergeMap true (mergeMap true es p.group) r.group =
      mergeMap true (mergeMap true es r.group) p.group) : p.Apart r := by
  have either {f : Feature} (hf : f.isMerged = false) : feature ≠ f ∨ other ≠ f := by
    by_contra h
    push Not at h
    have := merged (h.1.trans h.2.symm)
    rw [h.1, hf] at this
    cases this
  exact {
    space := (either rfl).imp hp.space hr.space
    resource := (either rfl).imp hp.resource hr.resource
    record := (either rfl).imp hp.record hr.record
    field := (either rfl).imp hp.field hr.field
    action := (either rfl).imp hp.action hr.action
    take := (either rfl).imp hp.take hr.take
    filter := (either rfl).imp hp.filter hr.filter
    sort := (either rfl).imp hp.sort hr.sort
    inspect := inspect
    page := page
    group := group }

theorem Only.apart_of_ne (hp : p.Only feature) (hr : r.Only other) (h : feature ≠ other) : p.Apart r := by
  have either (f : Feature) : feature ≠ f ∨ other ≠ f := by
    by_contra hf
    push Not at hf
    exact h (hf.1.trans hf.2.symm)
  have mergeMap_none (es : Option (Entries Value)) : mergeMap true es none = es := rfl
  have mergePage_none (page : Option Page) : mergePage true page none = page := rfl
  refine hp.apart hr (fun heq => absurd heq h) (fun es => ?_) (fun page => ?_) fun es => ?_
  · rcases either .inspect with hf | hf
    · rw [hp.inspect hf, mergeMap_none, mergeMap_none]
    · rw [hr.inspect hf, mergeMap_none, mergeMap_none]
  · rcases either .page with hf | hf
    · rw [hp.page hf, mergePage_none, mergePage_none]
    · rw [hr.page hf, mergePage_none, mergePage_none]
  · rcases either .group with hf | hf
    · rw [hp.group hf, mergeMap_none, mergeMap_none]
    · rw [hr.group hf, mergeMap_none, mergeMap_none]

end Query

namespace Param

/-! Parameters as edits -/

/-- What a parameter of a feature sets. A predicate is left for later. -/
def patch (p : Param) (feature : Feature) (subkeys : List String) : Except QueryError Query := do
  match feature with
  | .filter => return {}
  | .take =>
    p.noSubkeys subkeys
    return { take := some (Names.take p.values) }
  | .sort =>
    p.noSubkeys subkeys
    return { sort := some (Names.sort p.values) }
  | .page => return { page := some (← p.page subkeys) }
  | .group => return { group := some (← p.nest subkeys) }
  | .inspect => return { inspect := some (← p.nest subkeys) }
  | .action =>
    p.noSubkeys subkeys
    let name ← p.single
    match Action.ofName? name with
    | some action => return { action := some action }
    | none => throw (.query (.action name))
  | .space =>
    p.noSubkeys subkeys
    return { space := some (← p.single) }
  | .resource =>
    p.noSubkeys subkeys
    return { resource := some (← p.single) }
  | .record =>
    p.noSubkeys subkeys
    return { record := some (← p.single) }
  | .field =>
    p.noSubkeys subkeys
    return { field := some (← p.single) }
  | .query => throw (.param p.key .unknownFeature)

/-- The edit that a parameter makes of any state. -/
def edit (p : Param) : Except QueryError Edit :=
  p.parts.bind fun parts =>
    (p.patch parts.feature parts.subkeys).map fun patch =>
      (if parts.feature = .filter then [] else parts.level.names, patch)

/-- Features of the root have no level in their keys. -/
theorem level_of_parts {p : Param} {parts : Parts} (h : p.parts = .ok parts)
    (root : parts.feature.isLeveled = false) : parts.level = [] := by
  rw [Param.parts] at h
  split at h
  · cases h
  · cases h
    dsimp only at root ⊢
    rw [Feature.separator, root, if_neg (by decide)]
    obtain ⟨first, rest, hpieces⟩ := List.exists_cons_of_ne_nil (Text.pieces_ne_nil '.' p.key)
    have hfirst : '.' ∉ first.toList := by
      refine Text.not_mem_of_mem_pieces (s := p.key) ?_
      rw [hpieces]
      exact List.mem_cons_self
    rw [hpieces, List.headD_cons, Text.splitFirst_of_not_mem hfirst]
    rfl

/-- A parameter edits every state in the same way. -/
theorem apply_eq_edit (q : Query) (p : Param) : p.apply q = p.edit.map q.edit := by
  cases hparts : p.parts with
  | error e =>
    rw [apply, edit, hparts]
    rfl
  | ok parts =>
    obtain ⟨feature, level, subkeys⟩ := parts
    have hlevel := level_of_parts hparts
    rw [apply, edit, hparts, Except.monad_bind, Except.ok_bind, Except.ok_bind]
    dsimp only at hlevel ⊢
    cases feature with
    | filter =>
      obtain ⟨space, resource, record, field, action, inspect, take, filter, sort, page, group⟩ := q
      rfl
    | take | sort =>
      simp only [patch, Except.monad_bind]
      cases p.noSubkeys subkeys <;> rfl
    | page =>
      simp only [patch, Except.monad_bind]
      cases p.page subkeys <;> rfl
    | group =>
      simp only [patch, Except.monad_bind]
      cases p.nest subkeys <;> rfl
    | inspect =>
      simp only [patch, Except.monad_bind, hlevel rfl]
      cases p.nest subkeys <;> rfl
    | action =>
      simp only [patch, Except.monad_bind, hlevel rfl]
      cases p.noSubkeys subkeys with
      | error e => rfl
      | ok =>
        cases p.single with
        | error e => rfl
        | ok name =>
          simp only [Except.ok_bind]
          cases Action.ofName? name <;> rfl
    | space | resource | record | field =>
      simp only [patch, Except.monad_bind, hlevel rfl]
      cases p.noSubkeys subkeys with
      | error e => rfl
      | ok => cases p.single <;> rfl
    | query => rfl

/-- The patches that a parameter of a feature can make with its subkeys. -/
inductive Sets : Feature → List String → Query → Prop
  | filter (subkeys : List String) : Sets .filter subkeys {}
  | take (texts : List String) : Sets .take [] { take := some (Names.take texts) }
  | sort (keys : List String) : Sets .sort [] { sort := some keys }
  | size (n : UInt64) : Sets .page ["size"] { page := some { size := some n } }
  | after (subkeys : List String) (h : subkeys = [] ∨ subkeys = ["after"]) (after : String) :
    Sets .page subkeys { page := some { after := some after } }
  | group (leaf : List String × Value) : Sets .group leaf.1 { group := some (leafMap leaf) }
  | inspect (leaf : List String × Value) : Sets .inspect leaf.1 { inspect := some (leafMap leaf) }
  | action (action : Action) : Sets .action [] { action := some action }
  | space (name : String) : Sets .space [] { space := some name }
  | resource (name : String) : Sets .resource [] { resource := some name }
  | record (id : String) : Sets .record [] { record := some id }
  | field (name : String) : Sets .field [] { field := some name }

theorem noSubkeys_eq_ok {p : Param} {subkeys : List String} {u : Unit}
    (h : p.noSubkeys subkeys = .ok u) : subkeys = [] := by
  rw [noSubkeys] at h
  split at h
  · exact List.isEmpty_iff.mp ‹_›
  · cases h

theorem nest_eq_ok {p : Param} {subkeys : List String} {es : Entries Value}
    (h : p.nest subkeys = .ok es) : es = leafMap (subkeys, Scalar.readAll true p.values) := by
  cases subkeys with
  | nil => cases h
  | cons first rest =>
    rw [nest] at h
    split at h
    · cases h
    · cases h
      rfl

theorem sets_page {p : Param} {subkeys : List String} {page : Page} (h : p.page subkeys = .ok page) :
    Sets .page subkeys { page := some page } := by
  obtain ⟨value, -, h⟩ := Except.monad_bind_eq_ok.mp h
  split at h
  · cases h
    exact .after [] (.inl rfl) value
  · cases h
    exact .after ["after"] (.inr rfl) value
  · split at h
    · cases h
      exact .size _
    · cases h
  · cases h

theorem sets_of_patch {p : Param} {feature : Feature} {subkeys : List String} {r : Query}
    (h : p.patch feature subkeys = .ok r) : Sets feature subkeys r := by
  cases feature with
  | filter =>
    cases h
    exact .filter subkeys
  | take | sort =>
    obtain ⟨_, hsubkeys, ⟨⟩⟩ := Except.monad_bind_eq_ok.mp h
    rw [noSubkeys_eq_ok hsubkeys]
    constructor
  | page =>
    obtain ⟨page, hpage, ⟨⟩⟩ := Except.monad_bind_eq_ok.mp h
    exact sets_page hpage
  | group =>
    obtain ⟨es, hes, ⟨⟩⟩ := Except.monad_bind_eq_ok.mp h
    rw [nest_eq_ok hes]
    exact .group (subkeys, _)
  | inspect =>
    obtain ⟨es, hes, ⟨⟩⟩ := Except.monad_bind_eq_ok.mp h
    rw [nest_eq_ok hes]
    exact .inspect (subkeys, _)
  | action =>
    obtain ⟨_, hsubkeys, h⟩ := Except.monad_bind_eq_ok.mp h
    obtain ⟨name, -, h⟩ := Except.monad_bind_eq_ok.mp h
    rw [noSubkeys_eq_ok hsubkeys]
    split at h
    · cases h
      exact .action _
    · cases h
  | space | resource | record | field =>
    obtain ⟨_, hsubkeys, h⟩ := Except.monad_bind_eq_ok.mp h
    obtain ⟨name, -, ⟨⟩⟩ := Except.monad_bind_eq_ok.mp h
    rw [noSubkeys_eq_ok hsubkeys]
    constructor
  | query => cases h

section Sets
variable {feature other : Feature} {subkeys subkeys' : List String} {p r : Query}

theorem Sets.only (h : Sets feature subkeys p) : p.Only feature := by
  cases h <;> constructor <;> intro hne <;> first | rfl | exact absurd rfl hne

theorem unshaped_take (texts : List String) : Query.Unshaped { take := some (Names.take texts) } := by
  rintro _ ⟨⟩
  refine ⟨Entries.sorted_ofList _, ?_⟩
  have entry {name : String} {e : String × Take} (h : Names.takeEntry name = some e) :
      ∃ taken, e.2 = .flag taken := by
    rw [Names.takeEntry] at h
    split at h
    · split at h
      · cases h
      · cases h
        exact ⟨false, rfl⟩
    · cases h
      exact ⟨true, rfl⟩
  intro e he
  obtain ⟨name, -, hname⟩ := List.mem_filterMap.mp (Entries.mem_of_mem_ofList he)
  exact entry hname

theorem Sets.unshaped (h : Sets feature subkeys p) : p.Unshaped := by
  cases h with
  | take texts => exact unshaped_take texts
  | _ => rintro _ ⟨⟩

/-- The subkeys, and where a page has none the cursor to continue from. -/
def place (feature : Feature) (subkeys : List String) : List String :=
  if feature = .page ∧ subkeys = [] then ["after"] else subkeys

/-- Patches of one feature at two places, neither of them inside the other. -/
theorem Sets.apart (h : Sets feature subkeys p) (h' : Sets feature subkeys' r)
    (distinct : feature ≠ .filter → place feature subkeys ≠ place feature subkeys')
    (branches : feature = .group ∨ feature = .inspect →
      ¬subkeys <+: subkeys' ∧ ¬subkeys' <+: subkeys) : p.Apart r := by
  have hsize (page : Option Page) (n : UInt64) (after : String) :
      mergePage true (mergePage true page (some { size := some n })) (some { after := some after }) =
        mergePage true (mergePage true page (some { after := some after })) (some { size := some n }) := by
    cases page <;> rfl
  have merged := h.only.apart h'.only
  cases h with
  | filter =>
    cases h'
    exact ⟨.inl rfl, .inl rfl, .inl rfl, .inl rfl, .inl rfl, .inl rfl, .inl rfl, .inl rfl,
      fun _ => rfl, fun _ => rfl, fun _ => rfl⟩
  | take | sort | action | space | resource | record | field =>
    cases h'
    exact absurd rfl (distinct (by decide))
  | size n =>
    cases h' with
    | size => exact absurd rfl (distinct (by decide))
    | after _ _ after =>
      exact merged (fun _ => rfl) (fun _ => rfl) (fun page => hsize page n after) fun _ => rfl
  | after _ hplace after =>
    cases h' with
    | size n =>
      exact merged (fun _ => rfl) (fun _ => rfl) (fun page => (hsize page n after).symm) fun _ => rfl
    | after _ hplace' after' =>
      refine absurd ?_ (distinct (by decide))
      rcases hplace with rfl | rfl <;> rcases hplace' with rfl | rfl <;> rfl
  | group leaf =>
    cases h' with
    | group leaf' =>
      obtain ⟨hleaf, hleaf'⟩ := branches (.inl rfl)
      exact merged (fun _ => rfl) (fun _ => rfl) (fun _ => rfl) (Value.mergeMap_comm hleaf hleaf')
  | inspect leaf =>
    cases h' with
    | inspect leaf' =>
      obtain ⟨hleaf, hleaf'⟩ := branches (.inr rfl)
      exact merged (fun _ => rfl) (Value.mergeMap_comm hleaf hleaf') (fun _ => rfl) fun _ => rfl

end Sets

/-! Slots -/

/-- What a parameter addresses. -/
structure Slot where
  feature : Feature
  level : Level
  subkeys : List String
deriving DecidableEq

def slot? (p : Param) : Option Slot :=
  p.parts.toOption.map fun parts => ⟨parts.feature, parts.level, place parts.feature parts.subkeys⟩

theorem slot?_of_parts {p : Param} {parts : Parts} (h : p.parts = .ok parts) :
    p.slot? = some ⟨parts.feature, parts.level, place parts.feature parts.subkeys⟩ := by
  rw [slot?, h]
  rfl

def slots (ps : List Param) : List Slot := ps.filterMap slot?

/-- Parameters that keep out of each other's way: their levels have no empty names, they address
different slots, no leaf of a map lies inside another, and a level that has a `where` has one alone, or
tags under an algebra that joins them. -/
structure Independent (ps : List Param) : Prop where
  filled : ∀ s ∈ slots ps, "" ∉ s.level
  distinct : (slots ps).Nodup
  branches : ∀ s ∈ slots ps, ∀ t ∈ slots ps, s.feature = .group ∨ s.feature = .inspect →
    s.feature = t.feature → s.level = t.level → s.subkeys <+: t.subkeys → s = t
  tagged : ∀ b ∈ wheres ps, Tagged b.2

instance (ps : List Param) : Decidable (Independent ps) :=
  decidable_of_iff ((∀ s ∈ slots ps, "" ∉ s.level) ∧ (slots ps).Nodup ∧
      (∀ s ∈ slots ps, ∀ t ∈ slots ps, s.feature = .group ∨ s.feature = .inspect →
        s.feature = t.feature → s.level = t.level → s.subkeys <+: t.subkeys → s = t) ∧
      ∀ b ∈ wheres ps, Tagged b.2)
    ⟨fun ⟨filled, distinct, branches, tagged⟩ => ⟨filled, distinct, branches, tagged⟩,
      fun h => ⟨h.filled, h.distinct, h.branches, h.tagged⟩⟩

variable {ps ps' : List Param}

theorem mem_slots {p : Param} {s : Slot} (hp : p ∈ ps) (h : p.slot? = some s) : s ∈ slots ps :=
  List.mem_filterMap.mpr ⟨p, hp, h⟩

theorem Independent.slot_ne (h : Independent ps) {p r : Param} (hp : p ∈ ps) (hr : r ∈ ps) (hne : p ≠ r)
    {s t : Slot} (hs : p.slot? = some s) (ht : r.slot? = some t) : s ≠ t := by
  have hpairwise := List.pairwise_filterMap.mp h.distinct
  have : Std.Symm fun p r : Param => ∀ s, p.slot? = some s → ∀ t, r.slot? = some t → s ≠ t :=
    ⟨fun p r hpr s hs t ht heq => hpr t ht s hs heq.symm⟩
  exact hpairwise.forall hp hr hne s hs t ht

theorem parts_of_edit {p : Param} {e : Edit} (h : p.edit = .ok e) :
    ∃ parts, p.parts = .ok parts ∧ e.1 = (if parts.feature = .filter then [] else parts.level.names) ∧
      Sets parts.feature parts.subkeys e.2 := by
  obtain ⟨parts, hparts, h⟩ := Except.bind_eq_ok.mp h
  obtain ⟨patch, hpatch, rfl⟩ := Except.map_eq_ok.mp h
  exact ⟨parts, hparts, rfl, sets_of_patch hpatch⟩

theorem names_of_filled {level : Level} (h : "" ∉ level) : level.names = level := by
  rw [Level.names, List.filter_eq_self]
  intro name hname
  simpa using ne_of_mem_of_not_mem hname h

/-- Different parameters make edits that commute. -/
theorem Independent.apart (h : Independent ps) {p r : Param} (hp : p ∈ ps) (hr : r ∈ ps) (hne : p ≠ r)
    {e f : Edit} (he : p.edit = .ok e) (hf : r.edit = .ok f) (hnames : e.1 = f.1) : e.2.Apart f.2 := by
  obtain ⟨⟨feature, level, subkeys⟩, hparts, hlevel, hsets⟩ := parts_of_edit he
  obtain ⟨⟨other, level', subkeys'⟩, hparts', hlevel', hsets'⟩ := parts_of_edit hf
  have hslot := slot?_of_parts hparts
  have hslot' := slot?_of_parts hparts'
  have hslots := h.slot_ne hp hr hne hslot hslot'
  dsimp only at hlevel hlevel' hsets hsets' hslot hslot' hslots
  by_cases hfeature : feature = other
  swap
  · exact hsets.only.apart_of_ne hsets'.only hfeature
  subst hfeature
  have hlevels (hfilter : feature ≠ .filter) : level = level' := by
    rw [hlevel, hlevel', if_neg hfilter, if_neg hfilter, names_of_filled (h.filled _ (mem_slots hp hslot)),
      names_of_filled (h.filled _ (mem_slots hr hslot'))] at hnames
    exact hnames
  refine hsets.apart hsets' (fun hfilter hplace => hslots (by rw [hlevels hfilter, hplace])) fun hmap => ?_
  -- the subkeys of a map are its slots' subkeys, so one inside the other would be one slot
  have hplace (subkeys : List String) : place feature subkeys = subkeys := by
    rcases hmap with rfl | rfl <;> rfl
  have hlevels : level = level' := hlevels (by rcases hmap with rfl | rfl <;> decide)
  rw [hplace] at hslot hslot'
  rw [hplace, hplace] at hslots
  have hmem := mem_slots hp hslot
  have hmem' := mem_slots hr hslot'
  exact ⟨fun hprefix => hslots (h.branches _ hmem _ hmem' hmap rfl hlevels hprefix),
    fun hprefix => hslots (h.branches _ hmem' _ hmem hmap rfl hlevels.symm hprefix).symm⟩

/-! Runs -/

/-- Edits that are made one by one, or none if one of them cannot be made. -/
theorem toOption_foldlM {α : Type} {f : Query → α → Except QueryError Query} {g : α → Option Edit}
    {xs : List α} (h : ∀ x ∈ xs, ∀ q, (f q x).toOption = (g x).map q.edit) (q : Query) :
    (xs.foldlM f q).toOption =
      if ∀ x ∈ xs, (g x).isSome then some (q.edited (xs.filterMap g)) else none := by
  induction xs generalizing q with
  | nil => rfl
  | cons x xs ih =>
    rw [List.forall_mem_cons] at h
    have hx := h.1 q
    rw [List.foldlM_cons]
    cases hg : g x with
    | none =>
      rw [hg] at hx
      obtain ⟨e, he⟩ := Except.toOption_eq_none.mp hx
      rw [he, if_neg (by simp [hg])]
      rfl
    | some e =>
      rw [hg] at hx
      rw [Except.toOption_eq_some.mp hx, Except.monad_bind, Except.ok_bind, ih h.2,
        List.filterMap_cons_some hg]
      simp only [List.forall_mem_cons, hg, Option.isSome_some, true_and]
      rfl

/-- A run of edits that commute pairwise does not depend on their order. -/
theorem foldlM_perm {α : Type} {f f' : Query → α → Except QueryError Query} {g : α → Option Edit}
    {xs ys : List α} (perm : xs.Perm ys) (h : ∀ x ∈ xs, ∀ q, (f q x).toOption = (g x).map q.edit)
    (h' : ∀ x ∈ xs, ∀ q, (f' q x).toOption = (g x).map q.edit)
    (unshaped : ∀ x ∈ xs, ∀ e, g x = some e → e.2.Unshaped)
    (apart : ∀ x ∈ xs, ∀ y ∈ xs, x ≠ y → ∀ e f, g x = some e → g y = some f → e.1 = f.1 → e.2.Apart f.2)
    (q : Query) : (xs.foldlM f q).toOption = (ys.foldlM f' q).toOption := by
  rw [toOption_foldlM h, toOption_foldlM fun y hy => h' y (perm.mem_iff.mpr hy)]
  have hall : (∀ x ∈ xs, (g x).isSome) ↔ ∀ y ∈ ys, (g y).isSome := by
    simp only [perm.mem_iff]
  have hedited : q.edited (xs.filterMap g) = q.edited (ys.filterMap g) := by
    refine Query.edited_perm (perm.filterMap g) (fun e he => ?_) (fun e he f hf hne => ?_) q
    · obtain ⟨x, hx, hg⟩ := List.mem_filterMap.mp he
      exact unshaped x hx e hg
    · obtain ⟨x, hx, hgx⟩ := List.mem_filterMap.mp he
      obtain ⟨y, hy, hgy⟩ := List.mem_filterMap.mp hf
      refine apart x hx y hy (fun heq => hne ?_) e f hgx hgy
      rw [heq, hgy] at hgx
      exact (Option.some.inj hgx).symm
  rw [hedited]
  exact if_congr hall rfl rfl

/-- The predicates of all levels, set level by level. -/
def setWheres (ps : List Param) (q : Query) : Except QueryError Query :=
  (whereLevels ps).foldlM (fun q level =>
    (assembleWhere (wheresAt ps level)).map fun v => q.update { filter := some v } level false) q

theorem applyAll_eq (q : Query) (ps : List Param) :
    applyAll q ps = (ps.foldlM apply q).bind (setWheres ps) := by
  rw [applyAll, Except.monad_bind]
  refine congrArg _ (funext fun q => ?_)
  rw [wheres_eq, List.foldlM_map]
  rfl

section order
variable (independent : Independent ps) (h : ps.Perm ps')
include independent h

theorem settings_perm (q : Query) :
    (ps.foldlM apply q).toOption = (ps'.foldlM apply q).toOption := by
  have happly : ∀ p ∈ ps, ∀ q, (p.apply q).toOption = p.edit.toOption.map q.edit := fun p _ q => by
    rw [apply_eq_edit, Except.toOption_map]
  refine foldlM_perm h happly happly (fun p _ e he => ?_) (fun p hp r hr hne e f he hf => ?_) q
  · obtain ⟨_, -, -, hsets⟩ := parts_of_edit (Except.toOption_eq_some.mp he)
    exact hsets.unshaped
  · exact independent.apart hp hr hne (Except.toOption_eq_some.mp he) (Except.toOption_eq_some.mp hf)

theorem assemble_perm {level : Level} (hlevel : level ∈ whereLevels ps) :
    (assembleWhere (wheresAt ps level)).toOption = (assembleWhere (wheresAt ps' level)).toOption := by
  refine assembleWhere_perm (independent.tagged (level, wheresAt ps level) ?_) (wheresAt_perm h level)
  rw [wheres_eq]
  exact List.mem_map_of_mem hlevel

theorem setWheres_perm (q : Query) : (setWheres ps q).toOption = (setWheres ps' q).toOption := by
  have filled {level : Level} (hlevel : level ∈ whereLevels ps) : level.names = level := by
    obtain ⟨p, hp, w, hw⟩ := mem_whereLevels.mp hlevel
    delta whereParam? at hw
    split at hw
    · rename_i hparts
      cases hw
      exact names_of_filled (independent.filled _ (mem_slots hp (slot?_of_parts hparts)))
    · cases hw
  refine foldlM_perm (g := fun level => (assembleWhere (wheresAt ps level)).toOption.map fun v =>
    (level.names, { filter := some v })) (whereLevels_perm h) ?_ ?_ ?_ ?_ q
  · intro level _ q
    rw [Except.toOption_map, Option.map_map]
    rfl
  · intro level hlevel q
    rw [Except.toOption_map, assemble_perm independent h hlevel, Option.map_map]
    rfl
  · intro level _ e he
    obtain ⟨v, -, rfl⟩ := Option.map_eq_some_iff.mp he
    rintro _ ⟨⟩
  · intro level hlevel level' hlevel' hne e f he hf hnames
    obtain ⟨v, -, rfl⟩ := Option.map_eq_some_iff.mp he
    obtain ⟨w, -, rfl⟩ := Option.map_eq_some_iff.mp hf
    rw [filled hlevel, filled hlevel'] at hnames
    exact absurd hnames hne

/-- Independent parameters make one state in any order, or none in any. -/
theorem applyAll_perm (q : Query) :
    (applyAll q ps).toOption = (applyAll q ps').toOption := by
  rw [applyAll_eq, applyAll_eq, Except.toOption_bind, Except.toOption_bind,
    settings_perm independent h]
  exact congrArg _ (funext fun q => setWheres_perm independent h q)

end order
end Param

namespace Query
open Text (Form.decode)

/-- A text that form encoding makes has no question marks and no blanks. -/
def IsEncoded (text : String) : Prop := ∀ c ∈ text.toList, c ≠ '?' ∧ Text.isBlank c = false

theorem isEncoded_encode (pairs : List (String × String)) :
    IsEncoded (String.ofList (Text.Form.encode pairs)) := by
  intro c hc
  rw [String.toList_ofList] at hc
  exact (Text.Form.mem_encode hc).symm

/-- What stands before encoded parameters is trimmed and cut without them; if a question mark is in it,
there is no way to read the parameters. -/
theorem decode_params (root : Root) (path : String) : ∃ path? : Option String, ∀ params, IsEncoded params →
    (decode root (path ++ "?" ++ params)).toOption =
      path?.bind fun path => (ofPathAndParams root path params).toOption := by
  obtain ⟨start, hstart⟩ : ∃ start : String, start.toList = path.toList.dropWhile Text.isBlank :=
    ⟨String.ofList _, String.toList_ofList⟩
  obtain ⟨first, rest, hpieces⟩ := List.exists_cons_of_ne_nil (Text.pieces_ne_nil '?' start)
  refine ⟨if rest = [] then some first else none, fun params encoded => ?_⟩
  have htrim : Text.trim (path ++ "?" ++ params) = start ++ "?" ++ params := by
    have hblank : ∀ c ∈ '?' :: params.toList, Text.isBlank c = false :=
      List.forall_mem_cons.mpr ⟨by decide, fun c hc => (encoded c hc).2⟩
    have htoList (s : String) : (s ++ "?" ++ params).toList = s.toList ++ '?' :: params.toList := by simp
    rw [← String.toList_inj, Text.trim, String.toList_ofList, htoList, htoList, hstart,
      Text.trimBoth_append (List.cons_ne_nil _ _) hblank]
  have hblob : decodeState (Text.trimChar '/' (start ++ "?" ++ params)) = none := by
    refine decodeState_eq_none (c := '?') ?_ (by decide) (by decide) (by decide)
    rw [Text.trimChar, String.toList_ofList]
    exact Text.mem_trimBoth (by simp) (by decide)
  have hcut : Text.pieces '?' (start ++ "?" ++ params) = first :: (rest ++ [params]) := by
    rw [Text.pieces_append (s := start) (t := params) (by simp), hpieces,
      Text.pieces_of_not_mem fun hc => (encoded _ hc).1 rfl, List.cons_append]
  rw [decode, htrim, hblob, hcut]
  cases rest with
  | nil => rfl
  | cons second rest =>
    cases rest <;> rfl

variable {text text' : String}

theorem ofPathAndParams_reorder (root : Root) (path : String)
    (reorders : Gather.Reorders (Text.Form.decode text) (Text.Form.decode text'))
    (independent : Param.Independent (Param.group (Text.Form.decode text))) :
    (ofPathAndParams root path text).toOption = (ofPathAndParams root path text').toOption := by
  have hperm := Param.group_perm reorders
  have keys := Param.nodup_group (Text.Form.decode text)
  have hfind : (Param.group (Text.Form.decode text)).find? (fun p => p.key == Feature.query.name) =
      (Param.group (Text.Form.decode text')).find? fun p => p.key == Feature.query.name := by
    refine List.find?_eq_find?_of_perm hperm fun p hp r hr => ?_
    refine List.inj_on_of_nodup_map keys hp.1 hr.1 ?_
    rw [eq_of_beq hp.2, eq_of_beq hr.2]
  simp only [ofPathAndParams, hfind]
  cases root.address root.query ((Text.pieces '/' path).filter fun s => !s.isEmpty) with
  | none => rfl
  | some q =>
    cases (Param.group (Text.Form.decode text')).find? fun p => p.key == Feature.query.name with
    | none => exact Param.applyAll_perm independent hperm q
    | some p => rfl

/-- Independent parameters are read as one state in any order that keeps the values of each key in
theirs, or fail to be read in any. -/
theorem decode_reorder (root : Root) (path : String) (encoded : IsEncoded text) (encoded' : IsEncoded text')
    (reorders : Gather.Reorders (Text.Form.decode text) (Text.Form.decode text'))
    (independent : Param.Independent (Param.group (Text.Form.decode text))) (q : Query) :
    decode root (path ++ "?" ++ text) = .ok q ↔ decode root (path ++ "?" ++ text') = .ok q := by
  obtain ⟨path?, hpath⟩ := decode_params root path
  rw [← Except.toOption_eq_some, ← Except.toOption_eq_some, hpath text encoded, hpath text' encoded']
  simp only [ofPathAndParams_reorder root _ reorders independent]

/-- One author's recent posts: a page of titles and years, grouped by month, with the names of the authors. -/
def recentPosts : List (String × String) :=
  [("take", "title"), ("take.author", "name"), ("where", "mine and not old"),
    ("where:author:=:mine", "ann"), ("where:year:<:old", "2020"), ("page:size", "10"), ("page", "p7"),
    ("group:by:year", "true"), ("group:by:month", "true"), ("take", "year")]

/-- The same parameters, the two values of `take` in their order. -/
def recentPosts' : List (String × String) :=
  [("page", "p7"), ("group:by:month", "true"), ("where:year:<:old", "2020"), ("take.author", "name"),
    ("take", "title"), ("where:author:=:mine", "ann"), ("take", "year"), ("group:by:year", "true"),
    ("where", "mine and not old"), ("page:size", "10")]

theorem decode_recentPosts : Gather.Reorders recentPosts recentPosts' ∧
    Param.Independent (Param.group recentPosts) ∧
    (Param.applyAll {} (Param.group recentPosts)).toOption.isSome ∧
    ∀ q, decode .server ("blog/posts" ++ "?" ++ String.ofList (Text.Form.encode recentPosts)) = .ok q ↔
      decode .server ("blog/posts" ++ "?" ++ String.ofList (Text.Form.encode recentPosts')) = .ok q := by
  have hreorders : Gather.Reorders recentPosts recentPosts' := by decide +kernel
  have hindependent : Param.Independent (Param.group recentPosts) := by decide +kernel
  refine ⟨hreorders, hindependent, by decide +kernel, ?_⟩
  rw [← Text.Form.decode_encode recentPosts] at hindependent
  rw [← Text.Form.decode_encode recentPosts, ← Text.Form.decode_encode recentPosts'] at hreorders
  exact decode_reorder .server "blog/posts" (isEncoded_encode recentPosts) (isEncoded_encode recentPosts')
    hreorders hindependent

end Query
end RecordGraph
