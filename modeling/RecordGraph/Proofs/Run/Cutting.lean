import RecordGraph.Proofs.Run.Batches
import RecordGraph.Proofs.Run.Sizing
import RecordGraph.Proofs.Run.Visible

/-!
Lists cut at a smaller page. With a smaller page size at one of its levels, a query renders the rows that
it rendered, with the lists cut that stand at this level.
-/
namespace RecordGraph

/-! Cutting values -/

namespace Value
variable (nests : List String → String → Bool) (hits : List String → Bool) (size : Nat)

mutual
/-- A value from a level that names lead to, with the lists cut that stand where the names are hit. A map is
entered under the keys from which a nested state is reached. -/
def cut (names : List String) : Value → Value
  | .arr xs => .arr (if hits names then (cutItems names xs).take size else cutItems names xs)
  | .obj es => .obj (cutEntries names es)
  | v => v

def cutItems (names : List String) : List Value → List Value
  | [] => []
  | x :: xs => cut names x :: cutItems names xs

def cutEntries (names : List String) : List (String × Value) → List (String × Value)
  | [] => []
  | (key, v) :: es =>
    (key, if nests names key then cut (names ++ (Level.ofText key).names) v else v) :: cutEntries names es
end

/-- What stands under a key, cut if the key is entered. -/
def cutUnder (names : List String) (key : String) (v : Value) : Value :=
  if nests names key then cut nests hits size (names ++ (Level.ofText key).names) v else v

theorem cutItems_eq (names : List String) (xs : List Value) :
    cutItems nests hits size names xs = xs.map (cut nests hits size names) := by
  induction xs with
  | nil => rfl
  | cons x xs ih => rw [cutItems, ih, List.map_cons]

theorem cutEntries_eq (names : List String) (es : List (String × Value)) :
    cutEntries nests hits size names es =
      es.map fun e => (e.1, cutUnder nests hits size names e.1 e.2) := by
  induction es with
  | nil => rfl
  | cons e es ih => rw [cutEntries, ih, List.map_cons, cutUnder]

@[simp] theorem cut_null (names : List String) : cut nests hits size names .null = .null := rfl

@[simp] theorem cutUnder_null (names : List String) (key : String) :
    cutUnder nests hits size names key .null = .null := by
  unfold cutUnder
  split <;> rfl

/-- To cut below some names is to cut with what is reached behind them. -/
theorem cut_append (names more : List String) (v : Value) :
    cut (fun below => nests (names ++ below)) (fun below => hits (names ++ below)) size more v =
      cut nests hits size (names ++ more) v := by
  induction v using Value.inductionOn generalizing more with
  | null | bool | num | str => rfl
  | arr xs ih =>
    have items : xs.map (cut (fun below => nests (names ++ below)) (fun below => hits (names ++ below)) size
        more) = xs.map (cut nests hits size (names ++ more)) :=
      List.map_congr_left fun x hx => ih x hx more
    rw [cut, cut, cutItems_eq, cutItems_eq, items]
  | obj es ih =>
    rw [cut, cut, cutEntries_eq, cutEntries_eq]
    refine congrArg Value.obj (List.map_congr_left fun e he => ?_)
    rw [cutUnder, cutUnder, ih e he, List.append_assoc]

end Value

/-! Lists made along others -/

theorem zip_zipWith {α β γ : Type} (g : α → β → γ) (xs : List α) (ys : List β) :
    xs.zip (List.zipWith g xs ys) = (xs.zip ys).map fun p => (p.1, g p.1 p.2) := by
  induction xs generalizing ys with
  | nil => rfl
  | cons x xs ih =>
    cases ys with
    | nil => rfl
    | cons y ys => rw [List.zipWith_cons_cons, List.zip_cons_cons, ih, List.zip_cons_cons, List.map_cons]

theorem forall₂_zipWith {α β γ : Type} {P : α → β → Prop} {P' : α → γ → Prop} {g : α → β → γ}
    {xs : List α} {ys : List β} (h : List.Forall₂ P xs ys)
    (step : ∀ x ∈ xs, ∀ y, P x y → P' x (g x y)) : List.Forall₂ P' xs (List.zipWith g xs ys) := by
  induction h with
  | nil => exact .nil
  | cons head _ ih =>
    exact .cons (step _ List.mem_cons_self _ head)
      (ih fun x hx => step x (List.mem_cons_of_mem _ hx))

/-! Loading and dealing out -/

namespace Engine
variable {e : Engine} {ctx : Context} {r : Resource} {f : Field} {t : Target} {n : UInt64}

/-- A target with another page size. -/
def Target.sized (t : Target) (n : UInt64) : Target := { t with size := n }

/-- How many targets a relation shows of each record, with a page size. -/
def keeps (f : Field) (n : UInt64) : Nat := if f.isList then n.toNat else 1

theorem keeps_le (f : Field) (le : n ≤ t.size) : keeps f n ≤ keeps f t.size := by
  unfold keeps
  split
  · exact UInt64.le_iff_toNat_le.mp le
  · exact Nat.le_refl 1

section stored
variable (e r f t) (source path : String)

/-- What is stored as the targets of a record, before it is cut to a page. -/
def matchedTargets (record : Option Record) : Except StoreError (List Record) :=
  (Store.select (conjoin t.predicates) (Store.candidates (relatedRequest r f t source path []).relation
    (e.store.records source) (e.store.records t.source) (parentText r record))).map (sortRecords t.sort)

theorem linkedTargets_sized (n : UInt64) (record : Option Record) :
    e.linkedTargets r f (t.sized n) source path record = (e.matchedTargets r f t source path record).map
      (Store.window 0 (some (if f.isList then Window.oneMore n else 1))) := by
  change (Store.select (conjoin t.predicates) (Store.candidates (relatedRequest r f t source path []).relation
    (e.store.records source) (e.store.records t.source) (parentText r record))).map _ = _
  unfold matchedTargets
  cases Store.select (conjoin t.predicates) _ <;> rfl

/-- Of what is loaded for a record, a page is kept. -/
theorem kept_linkedTargets (n : UInt64) (records : List (Option Record)) :
    (t.sized n).kept f (records.map fun record =>
      (e.linkedTargets r f (t.sized n) source path record).toOption.getD []) =
      records.map fun record =>
        ((e.matchedTargets r f t source path record).toOption.getD []).take (keeps f n) := by
  rw [Target.kept, List.map_map]
  refine List.map_congr_left fun record _ => ?_
  rw [Function.comp_apply, linkedTargets_sized]
  change List.take (keeps f n) _ = _
  unfold keeps
  cases e.matchedTargets r f t source path record with
  | error err => simp [Except.toOption, Except.map]
  | ok found =>
    cases f.isList with
    | true => exact Store.take_window n found
    | false => exact List.take_take.trans rfl

end stored

/-- With a smaller page, fewer of the same targets are kept for each record. -/
theorem loadTargets_sized (le : n ≤ t.size) {records : List (Option Record)} {values : List Value}
    {groups : List (List Record)} (h : (e.loadTargets r f t records values).outcome = .ok groups) :
    ∃ groups', (e.loadTargets r f (t.sized n) records values).outcome = .ok groups' ∧
      (t.sized n).kept f groups' = (t.kept f groups).map (List.take (keeps f n)) := by
  have fewer (group : List Record) : (group.take (keeps f t.size)).take (keeps f n) =
      group.take (keeps f n) := by
    rw [List.take_take, Nat.min_eq_left (keeps_le f le)]
  -- stored targets are cut by the store, computed ones are all loaded and cut afterwards
  by_cases hstored : ∃ path source, f.source = .path path ∧ r.source = some source
  · obtain ⟨path, source, hpath, hsource⟩ := hstored
    have load (n : UInt64) : e.loadTargets r f (t.sized n) records values =
        e.loadStored r f (t.sized n) source path records := by
      rw [loadTargets, hpath, hsource]
    have loaded : (e.loadStored r f (t.sized t.size) source path records).outcome = .ok groups := by
      rw [← load]
      exact h
    obtain ⟨known, found, rfl⟩ := (loadStored_eq_ok ..).mp loaded
    refine ⟨_, (congrArg Run.outcome (load n)).trans ((loadStored_eq_ok ..).mpr ⟨known, ?_, rfl⟩), ?_⟩
    · intro record hrecord
      obtain ⟨targets, htargets⟩ := found record hrecord
      rw [linkedTargets_sized] at htargets
      obtain ⟨all, hall, -⟩ := Except.map_eq_ok.mp htargets
      exact ⟨_, by rw [linkedTargets_sized, hall]; rfl⟩
    · have whole := kept_linkedTargets e r f t source path t.size records
      have kept : t.kept f _ = _ := whole
      rw [kept_linkedTargets, kept, List.map_map]
      exact List.map_congr_left fun record _ => (fewer _).symm
  · have load (n : UInt64) : e.loadTargets r f (t.sized n) records values = e.loadComputed t values := by
      unfold loadTargets
      split
      · exact absurd ⟨_, _, ‹_›, ‹_›⟩ hstored
      · rfl
    refine ⟨groups, ?_, ?_⟩
    · rw [load, ← load t.size]
      exact h
    · rw [Target.kept, Target.kept, List.map_map]
      exact List.map_congr_left fun group _ => (fewer group).symm

/-! Rendering relations -/

section values
variable (nests : List String → String → Bool) (hits : List String → Bool) (size : Nat)

/-- The value of a relation is cut as the rows of its targets are, if it shows no more than it keeps. -/
theorem cut_linkedValue {names : List String} {items : List Value}
    (hit : hits names = true → n.toNat = size) (fits : items.length ≤ keeps f t.size)
    (unhit : hits names = false → n = t.size) :
    (linkedValue f items).cut nests hits size names =
      linkedValue f ((items.take (keeps f n)).map (Value.cut nests hits size names)) := by
  unfold linkedValue
  unfold keeps at fits ⊢
  cases list : f.isList with
  | true =>
    rw [list, if_pos rfl] at fits
    rw [if_pos rfl, if_pos rfl, if_pos rfl, Value.cut, Value.cutItems_eq]
    cases hhit : hits names with
    | true => rw [if_pos rfl, hit hhit, List.map_take]
    | false => rw [if_neg Bool.false_ne_true, unhit hhit, List.take_of_length_le fits]
  | false => cases items <;> rfl

theorem cell_map {g : Value → Value} (null : g .null = .null) (column : List Value) (row : Nat) :
    cell (column.map g) row = g (cell column row) := by
  rw [cell, cell, List.getElem?_map]
  cases column[row]? with
  | none => exact null.symm
  | some v => rfl

/-- Rows are cut as their columns are. -/
theorem assemble_cut (path names : List String) (columns : List (List Value)) (rows : Nat) :
    assemble false names (List.zipWith (fun name column => column.map
      (Value.cutUnder nests hits size path name)) names columns) rows =
        (assemble false names columns rows).map (Value.cut nests hits size path) := by
  rw [assemble, assemble, List.map_map]
  refine List.map_congr_left fun row _ => ?_
  simp only [Bool.false_eq_true, if_false, Function.comp_apply, Value.object, Value.cut]
  rw [Value.cutEntries_eq, Entries.map_ofList, zip_zipWith, List.map_map, List.map_map]
  refine congrArg (Value.obj ∘ Entries.ofList) (List.map_congr_left fun p _ => ?_)
  rw [Function.comp_apply, Function.comp_apply, cell_map (Value.cutUnder_null ..)]

end values

/-- What is loaded for a relation is stored in the collection of its target. -/
theorem loadTargets_subset {value : Option Record → Value} {records : List (Option Record)}
    (regular : Computes r f → t.Regular e (records.map value)) {groups : List (List Record)}
    (h : (e.loadTargets r f t records (records.map value)).outcome = .ok groups) :
    (t.kept f groups).flatten ⊆ t.stored e := by
  obtain ⟨targets, ⟨settled, defined, hload⟩, stored⟩ := pointwise_loadTargets regular
  obtain ⟨-, -, rfl⟩ := (hload records (List.Subset.refl _) groups).mp h
  intro record hrecord
  obtain ⟨group, hgroup, hrecord⟩ := List.mem_flatten.mp hrecord
  obtain ⟨loaded, hloaded, rfl⟩ := List.mem_map.mp hgroup
  obtain ⟨parent, -, rfl⟩ := List.mem_map.mp hloaded
  exact stored parent (List.mem_of_mem_take hrecord)

/-! Queries with a smaller page -/

/-- Two queries that are the same up to a page size, which is no larger in the second; their filters do not
read the query. -/
structure Resizes (e : Engine) (request : Value) (hits : List String → Bool) (size : UInt64)
    (q q' : Query) : Prop where
  resized : q.Resized hits size q'
  filters : q.FiltersBlind request
  smaller : ∀ names state, hits names = true → q.follow names = some (.state state) →
    size ≤ (state.page.bind Page.size).getD e.settings.pageSize

section levels
variable {request : Value} {q q' : Query} {hits : List String → Bool} {size : UInt64} {level : Level}
  {scope scope' : Scope} (resizes : e.Resizes request hits size q q')
  (below : (q.field.isSome && level.isEmpty) = false) (hscope : q.scope level = .ok scope)
include resizes below hscope

theorem Resizes.filter {predicate : Value} (hp : scope.state?.bind Query.filter = some predicate) :
    Indifferent request fun ctx => resolve ctx.scope predicate := by
  obtain ⟨located, hfollow, rfl⟩ := (Query.scope_named below).mp hscope
  cases located with
  | flag taken => cases hp
  | state state =>
    refine resizes.filters _ state hfollow predicate ?_
    cases hfield : q.field.isNone <;> (simp only [Query.governed, hfield] at hp; exact hp)

theorem Resizes.size_le (hit : hits (q.named level) = true) :
    size ≤ scope.pageSize e.settings.pageSize := by
  obtain ⟨located, hfollow, rfl⟩ := (Query.scope_named below).mp hscope
  cases located with
  | flag taken =>
    have led := resizes.resized (q.named level)
    rw [hfollow, hit] at led
    generalize q'.follow (q.named level) = found at led
    cases led with
    | some alike =>
      cases alike with
      | flag unhit => cases unhit
  | state state =>
    have smaller := resizes.smaller _ state hit hfollow
    cases hfield : q.field.isNone <;> (simp only [Query.governed, hfield]; exact smaller)

end levels

theorem permitted_taken {take take' : Option (Entries Take)} {idName action : String} {settings : Settings}
    {fields : List Field} (h : ∀ f, shouldTake f take' idName = shouldTake f take idName) :
    permitted take' idName action ctx settings fields = permitted take idName action ctx settings fields := by
  induction fields with
  | nil => rfl
  | cons f fields ih => rw [permitted, permitted, h f, ih]

section resized
variable {request : Value} {q q' : Query} {hits : List String → Bool} {size : UInt64} {level : Level}
  {link : String} {access : Access} {scope : Scope} (blind : e.QueryFree request)
  (resizes : e.Resizes request hits size q q')
include blind resizes

/-- The same fields are selected. -/
theorem takeFields_resized (known : r ∈ e.resources) (below : (q.field.isSome && level.isEmpty) = false)
    (hscope : q.scope level = .ok scope) :
    takeFields r "get" level ⟨q', request⟩ e.settings = takeFields r "get" level ⟨q, request⟩ e.settings := by
  obtain ⟨scope', hscope', alike⟩ := resizes.resized.scope below hscope
  have below' : (q'.field.isSome && level.isEmpty) = false := by rw [resizes.resized.field, below]
  rw [takeFields_scope below' hscope', takeFields_scope below hscope,
    permitted_taken fun f => alike.shouldTake f r.idName]
  exact blind.permitted known q' q

/-- A relation has the same target, up to the page size. -/
theorem settled_resized (known : r ∈ e.resources) (mem : f ∈ r.fields)
    (h : e.Settled ⟨q, request⟩ r f link level t access scope) :
    ∃ scope', e.Settled ⟨q', request⟩ r f link level
      (t.sized (if hits (q.named t.level) then size else t.size)) access scope' := by
  have related := mem_resources_of_resolveLink h.resolved
  have below : (q.field.isSome && t.level.isEmpty) = false := by
    rw [h.entered]
    simp [enter_ne_nil]
  obtain ⟨scope', hscope', alike⟩ := resizes.resized.scope below h.governed
  exact ⟨scope', {
    resolved := h.resolved
    entered := h.entered
    granted := (blind.can related known mem _ _ _).trans h.granted
    allowed := h.allowed
    taken := (takeFields_resized blind resizes related below h.governed).trans h.taken
    governed := hscope'
    size := by rw [alike.pageSize, ← h.size]; rfl
    prepared := by
      rw [alike.filter]
      exact (prepareAll_congr (fun p hp => blind.permission related h.granted hp)
        (fun p hp => resizes.filter below h.governed hp)).trans h.prepared
    sorted := by
      rw [alike.sort]
      exact h.sorted
    stored := h.stored }⟩

end resized

/-! Rendering with a smaller page -/

/-- What a relation leads to is below the root, and shows fields of a known resource. -/
theorem follows_target {b : Batch} (h : b.Follows e ctx f t) :
    (ctx.query.field.isSome && t.level.isEmpty) = false ∧ t.resource ∈ e.resources ∧
      t.fields ⊆ t.resource.fields := by
  obtain ⟨-, link, -, ht⟩ := h
  obtain ⟨_, _, settled⟩ := target_eq_ok.mp ht
  refine ⟨?_, mem_resources_of_resolveLink settled.resolved, fun g hg =>
    (gettable_of_takeFields settled.taken hg).mem⟩
  rw [settled.entered]
  simp [enter_ne_nil]

theorem isDeep_nests (request : Value) {q : Query} {level : Level} {scope : Scope}
    (below : (q.field.isSome && level.isEmpty) = false) (hscope : q.scope level = .ok scope) (f : Field) :
    isDeep ⟨q, request⟩ scope f level = q.nests (q.named level) f.name := by
  obtain ⟨located, hfollow, rfl⟩ := (Query.scope_named below).mp hscope
  have rooted : ((Context.mk q request).query.field.isSome && level.isEmpty) = false := below
  rw [Bool.eq_iff_iff, isDeep_iff rooted, Query.nests, Query.below?, hfollow]
  cases located with
  | flag taken => simp [Query.governed, Located.state?]
  | state state =>
    have same : Query.entry? (if q.field.isNone then state else state.leveledFeatures) f.name =
        state.entry? f.name := by split <;> rfl
    simp only [Query.governed, Scope.state.injEq, exists_and_left, exists_eq_left', same]
    rcases hentry : state.entry? f.name with - | (taken | nested) <;>
      simp [Located.state?, Take.isNested, hentry]

section rendering
variable {request : Value} {q q' : Query} {hits : List String → Bool} {size : UInt64}
  (blind : e.QueryFree request) (resizes : e.Resizes request hits size q q')
include blind resizes

section columns
variable {b : Batch} (known : b.resource ∈ e.resources)
include known

/-- The lists of a relation are cut, if what it leads to is rendered with lists cut. -/
theorem renderRelated_resized {render render' : Renderer} {link : String} {value : Option Record → Value}
    {records : List (Option Record)} {column : List Value} (mem : f ∈ b.resource.fields)
    (ht : e.target ⟨q, request⟩ b.resource f link b.level = .ok t)
    (regular : Computes b.resource f → t.Regular e (records.map value))
    (rows : ∃ row, Pointwise (t.batch e f).records
      (fun records => render { t.batch e f with records := records }) row)
    (cuts : ∀ records ⊆ (t.batch e f).records, ∀ rows,
      (render { t.batch e f with records := records }).outcome = .ok rows →
        (render' { t.batch e f with records := records }).outcome =
          .ok (rows.map (Value.cut q.nests hits size.toNat (q.named t.level))))
    (h : (e.renderRelated ⟨q, request⟩ render b.resource f link records (records.map value)
      b.level).outcome = .ok column) :
    (e.renderRelated ⟨q', request⟩ render' b.resource f link records (records.map value)
      b.level).outcome =
        .ok (column.map (Value.cut q.nests hits size.toNat (q.named t.level))) := by
  obtain ⟨t', groups, rendered, ht', hgroups, hrendered, rfl⟩ := outcome_renderRelated.mp h
  cases ht.symm.trans ht'
  obtain ⟨access, scope, settled⟩ := target_eq_ok.mp ht
  obtain ⟨scope', settled'⟩ := settled_resized blind resizes known mem settled
  have entered : (q.field.isSome && t.level.isEmpty) = false := by
    rw [settled.entered]
    simp [enter_ne_nil]
  have smaller : (if hits (q.named t.level) then size else t.size) ≤ t.size := by
    split
    · exact settled.size ▸ resizes.size_le entered settled.governed ‹_›
    · exact UInt64.le_refl _
  generalize hn : (if hits (q.named t.level) then size else t.size) = n at settled' smaller
  obtain ⟨groups', hgroups', kept⟩ := loadTargets_sized smaller hgroups
  -- what is kept of the targets is rendered as it was, so only the lists are shorter
  obtain ⟨row, settledRows, defined, hrows⟩ := rows
  have stored : (t.kept f groups).flatten.map some ⊆ (t.batch e f).records :=
    List.map_subset _ (loadTargets_subset regular hgroups)
  have fewer : ((t.sized n).kept f groups').flatten.map some ⊆ (t.kept f groups).flatten.map some := by
    refine List.map_subset _ fun record hrecord => ?_
    rw [kept] at hrecord
    obtain ⟨_, hcut, hrecord⟩ := List.mem_flatten.mp hrecord
    obtain ⟨group, hgroup, rfl⟩ := List.mem_map.mp hcut
    exact List.mem_flatten.mpr ⟨group, hgroup, List.mem_of_mem_take hrecord⟩
  obtain ⟨hsettled, hdefined, rfl⟩ := (hrows _ stored rendered).mp hrendered
  have again := (hrows _ (List.Subset.trans fewer stored) _).mpr
    ⟨hsettled, fun record hrecord => hdefined record (fewer hrecord), rfl⟩
  refine outcome_renderRelated.mpr ⟨t.sized n, groups', _, target_eq_ok.mpr ⟨_, _, settled'⟩, hgroups',
    cuts _ (List.Subset.trans fewer stored) _ again, ?_⟩
  have shorter : ∀ group ∈ t.kept f groups, group.length ≤ keeps f t.size := by
    intro group hgroup
    obtain ⟨loaded, -, rfl⟩ := List.mem_map.mp hgroup
    exact List.length_take_le _ _
  rw [List.map_map (g := Value.cut _ _ _ _), Target.dealt_map, Target.dealt_map, kept, List.map_map,
    List.map_map]
  refine List.map_congr_left fun group hgroup => ?_
  have unhit (no : hits (q.named t.level) = false) : n = t.size := by simpa [no] using hn.symm
  have hit (yes : hits (q.named t.level) = true) : n.toNat = size.toNat := by simp [← hn, yes]
  rw [Function.comp_apply, cut_linkedValue _ _ _ hit (by simpa using shorter group hgroup) unhit,
    ← List.map_take, List.map_map]
  rfl

/-- The column of a relation that is followed is cut at the level of its targets. -/
theorem renderColumn_followed {fuel : Nat} {scope scope' : Scope} {link : String} {column : List Value}
    (mem : f ∈ b.fields) (among : b.fields ⊆ b.resource.fields) (hscope : q.scope b.level = .ok scope)
    (deep : isDeep ⟨q, request⟩ scope f b.level = true)
    (deep' : isDeep ⟨q', request⟩ scope' f b.level = true) (hlink : f.link? = some link)
    (regular : ∀ more, Relation.ReflTransGen (Batch.Leads e ⟨q, request⟩) b more →
      more.Regular e ⟨q, request⟩)
    (cuts : ∀ t, b.Follows e ⟨q, request⟩ f t → ∀ records ⊆ (t.batch e f).records, ∀ rows,
      (e.render ⟨q, request⟩ fuel { t.batch e f with records := records }).outcome = .ok rows →
        (e.render ⟨q', request⟩ fuel { t.batch e f with records := records }).outcome =
          .ok (rows.map (Value.cut q.nests hits size.toNat (q.named t.level))))
    {records : List (Option Record)} (sub : records ⊆ b.records)
    (h : (e.renderColumn ⟨q, request⟩ (e.render ⟨q, request⟩ fuel) scope { b with records := records }
      f).outcome = .ok column) :
    (e.renderColumn ⟨q', request⟩ (e.render ⟨q', request⟩ fuel) scope' { b with records := records }
      f).outcome =
        .ok (column.map (Value.cut q.nests hits size.toNat (q.named (b.level.enter f.name)))) := by
  obtain ⟨values, hvalues, h⟩ :=
    (outcome_renderColumn_deep (b := { b with records := records }) deep hlink).mp h
  have hvalues' := (blind.fieldValues known (among mem) records q' q).trans hvalues
  obtain ⟨-, rfl⟩ := (Except.mapM_eq_ok_map Value.null).mp hvalues
  obtain ⟨t, -, -, ht, -⟩ := outcome_renderRelated.mp h
  have follows : b.Follows e ⟨q, request⟩ f t :=
    ⟨⟨mem, by simp [hlink], scope, hscope, deep⟩, link, hlink, ht⟩
  have cut := renderRelated_resized blind resizes known (among mem) ht
    (fun computes => (regular b .refl f t follows computes).mono (List.map_subset _ sub))
    (pointwise_render fuel _ fun more reached => regular more (.head ⟨f, t, follows, rfl⟩ reached))
    (cuts t follows) h
  obtain ⟨_, _, settled⟩ := target_eq_ok.mp ht
  rw [← settled.entered]
  exact (outcome_renderColumn_deep (b := { b with records := records }) deep' hlink).mpr
    ⟨_, hvalues', cut⟩

/-- A column is cut under the name of its field. -/
theorem renderColumn_resized {fuel : Nat} {scope scope' : Scope} {column : List Value}
    (below : (q.field.isSome && b.level.isEmpty) = false) (mem : f ∈ b.fields)
    (among : b.fields ⊆ b.resource.fields) (hscope : q.scope b.level = .ok scope)
    (hscope' : q'.scope b.level = .ok scope')
    (regular : ∀ more, Relation.ReflTransGen (Batch.Leads e ⟨q, request⟩) b more →
      more.Regular e ⟨q, request⟩)
    (cuts : ∀ t, b.Follows e ⟨q, request⟩ f t → ∀ records ⊆ (t.batch e f).records, ∀ rows,
      (e.render ⟨q, request⟩ fuel { t.batch e f with records := records }).outcome = .ok rows →
        (e.render ⟨q', request⟩ fuel { t.batch e f with records := records }).outcome =
          .ok (rows.map (Value.cut q.nests hits size.toNat (q.named t.level))))
    {records : List (Option Record)} (sub : records ⊆ b.records)
    (h : (e.renderColumn ⟨q, request⟩ (e.render ⟨q, request⟩ fuel) scope { b with records := records }
      f).outcome = .ok column) :
    (e.renderColumn ⟨q', request⟩ (e.render ⟨q', request⟩ fuel) scope' { b with records := records }
      f).outcome =
        .ok (column.map (Value.cutUnder q.nests hits size.toNat (q.named b.level) f.name)) := by
  have nested := isDeep_nests request below hscope f
  have nested' : isDeep ⟨q', request⟩ scope' f b.level = isDeep ⟨q, request⟩ scope f b.level := by
    rw [isDeep_nests request (by rw [resizes.resized.field, below]) hscope' f, nested, resizes.resized.nests,
      resizes.resized.named]
  cases deep : isDeep ⟨q, request⟩ scope f b.level with
  | false =>
    have kept : Value.cutUnder q.nests hits size.toNat (q.named b.level) f.name = id := by
      funext v
      rw [Value.cutUnder, ← nested, deep, if_neg Bool.false_ne_true, id]
    rw [kept, List.map_id]
    exact (renderColumn_flat (b := { b with records := records }) (nested'.trans deep)).mpr
      (blind.valued known (among mem) q q' ((renderColumn_flat (b := { b with records := records })
        deep).mp h))
  | true =>
    have entered : Value.cutUnder q.nests hits size.toNat (q.named b.level) f.name =
        Value.cut q.nests hits size.toNat (q.named (b.level.enter f.name)) := by
      funext v
      rw [Value.cutUnder, ← nested, deep, if_pos rfl, Query.named_enter below]
    obtain ⟨link, hlink⟩ := link?_of_renderColumn (b := { b with records := records }) deep below h
    rw [entered]
    exact renderColumn_followed blind resizes known mem among hscope deep (nested'.trans deep) hlink
      regular cuts sub h

end columns

/-- Rows are rendered with the lists cut that stand at the level with the smaller page. -/
theorem render_resized (fuel : Nat) {b : Batch} (below : (q.field.isSome && b.level.isEmpty) = false)
    (known : b.resource ∈ e.resources) (among : b.fields ⊆ b.resource.fields)
    (regular : ∀ more, Relation.ReflTransGen (Batch.Leads e ⟨q, request⟩) b more →
      more.Regular e ⟨q, request⟩)
    {records : List (Option Record)} (sub : records ⊆ b.records) {rows : List Value}
    (h : (e.render ⟨q, request⟩ fuel { b with records := records }).outcome = .ok rows) :
    (e.render ⟨q', request⟩ fuel { b with records := records }).outcome =
      .ok (rows.map (Value.cut q.nests hits size.toNat (q.named b.level))) := by
  induction fuel generalizing b records rows with
  | zero => cases h
  | succ fuel ih =>
    obtain ⟨scope, columns, hscope, hcolumns, rfl⟩ := outcome_render.mp h
    obtain ⟨scope', hscope', -⟩ := resizes.resized.scope below hscope
    have root (q : Query) (h : q.field = q'.field) : (q.field.isSome && b.level.isEmpty) = false := by
      rw [h, resizes.resized.field, below]
    refine outcome_render.mpr ⟨scope', List.zipWith (fun f column => column.map
      (Value.cutUnder q.nests hits size.toNat (q.named b.level) f.name)) b.fields columns, hscope',
      forall₂_zipWith hcolumns fun f mem column h => ?_, ?_⟩
    · refine renderColumn_resized blind resizes known below mem among hscope hscope' regular
        (fun t follows records sub rows h => ?_) sub h
      obtain ⟨below, known, among⟩ := follows_target follows
      exact ih below known among
        (fun more reached => regular more (.head ⟨f, t, follows, rfl⟩ reached)) sub h
    · have cut := assemble_cut q.nests hits size.toNat (q.named b.level) (b.fields.map Field.name) columns
        records.length
      rw [List.zipWith_map_left] at cut
      dsimp only
      rw [root q resizes.resized.field.symm, root q' rfl, cut]

end rendering

end Engine
end RecordGraph
