import RecordGraph.Proofs.Run.Children
import RecordGraph.Proofs.Run.FieldQuery
import RecordGraph.Proofs.Run.Levels

/-!
Page sizes of levels. With another page size at one of its levels, a query leads everywhere to what it
led to, but for this size; so do the queries of its children.
-/
namespace RecordGraph

/-- Whether a name is taken with a state of its own. -/
def Take.isNested : Take → Bool
  | .flag _ => false
  | .nested _ => true

/-- Entries that say the same of a name: the same flag, or a state each. -/
inductive Take.Kindred : Take → Take → Prop
  | flag (taken : Bool) : Kindred (.flag taken) (.flag taken)
  | nested (a b : Query) : Kindred (.nested a) (.nested b)

/-- States that are the same but for what is nested in them and, if they are hit, the page size. -/
structure Query.Resembles (hit : Bool) (size : UInt64) (a b : Query) : Prop where
  root : b.rootFeatures = a.rootFeatures
  filter : b.filter = a.filter
  sort : b.sort = a.sort
  page : hit = false → b.page = a.page
  sized : hit = true → b.page.bind Page.size = some size
  taken : b.take.isSome = a.take.isSome
  entries : ∀ name, Option.Rel Take.Kindred (a.entry? name) (b.entry? name)
  depth : Engine.takeDepth b = Engine.takeDepth a

/-- What names lead to in such states; a flag is not hit. -/
inductive Located.Resembles (hit : Bool) (size : UInt64) : Located → Located → Prop
  | flag (unhit : hit = false) (taken : Bool) : Resembles hit size (.flag taken) (.flag taken)
  | state {a b : Query} (h : a.Resembles hit size b) : Resembles hit size (.state a) (.state b)

/-! How deeply states are nested -/

namespace Engine

theorem takeDepth_eq (q : Query) : takeDepth q = takesDepth (q.take.getD []) := by
  obtain ⟨space, resource, record, field, action, inspect, take, filter, sort, page, group⟩ := q
  cases take <;> rfl

theorem takesDepth_insert {ts : Entries Take} {name : String} {t u : Take} (h : ts.lookup name = some t)
    (same : entryDepth u = entryDepth t) : takesDepth (ts.insert name u) = takesDepth ts := by
  induction ts with
  | nil => cases h
  | cons e ts ih =>
    obtain ⟨first, v⟩ := e
    have within : entryDepth t ≤ takesDepth ((first, v) :: ts) :=
      Query.entryDepth_le (q := { take := some ((first, v) :: ts) }) h
    rw [List.lookup_cons] at h
    rw [Entries.insert]
    by_cases hlt : name < first
    · rw [if_pos hlt, takesDepth, same, Nat.max_eq_right within]
    · rw [if_neg hlt]
      by_cases heq : name = first
      · subst heq
        rw [beq_self_eq_true] at h
        cases h
        rw [if_pos rfl, takesDepth, takesDepth, same]
      · rw [beq_eq_false_iff_ne.mpr heq] at h
        rw [if_neg heq, takesDepth, takesDepth, ih h]

end Engine

namespace Query
variable {q q' a b state : Query} {size : UInt64} {hit : Bool} {names : List String}

/-! Features of the root and of levels -/

theorem rootFeatures_inj : b.rootFeatures = a.rootFeatures ↔
    b.space = a.space ∧ b.resource = a.resource ∧ b.record = a.record ∧ b.field = a.field ∧
      b.action = a.action ∧ b.inspect = a.inspect := by
  simp [rootFeatures]

theorem leveledFeatures_inj : b.leveledFeatures = a.leveledFeatures ↔
    b.take = a.take ∧ b.filter = a.filter ∧ b.sort = a.sort ∧ b.page = a.page ∧ b.group = a.group := by
  simp [leveledFeatures]

/-! The same but for a size -/

/-- With another page size at one of its levels, up to the names that lead there. -/
def Resized (hits : List String → Bool) (size : UInt64) (q q' : Query) : Prop :=
  ∀ names, Option.Rel (Located.Resembles (hits names) size) (q.follow names) (q'.follow names)

theorem kindred_refl (entry : Option Take) : Option.Rel Take.Kindred entry entry := by
  rcases entry with - | (taken | state)
  · exact .none
  · exact .some (.flag taken)
  · exact .some (.nested state state)

theorem Resembles.refl (q : Query) : q.Resembles false size q :=
  ⟨rfl, rfl, rfl, fun _ => rfl, nofun, rfl, fun _ => kindred_refl _, rfl⟩

theorem resembles_refl (located : Option Located) :
    Option.Rel (Located.Resembles false size) located located := by
  rcases located with - | (taken | state)
  · exact .none
  · exact .some (.flag rfl taken)
  · exact .some (.state (.refl state))

theorem Resized.self {hits : List String → Bool} (h : q.Resized hits size q') :
    q.Resembles (hits []) size q' := by
  cases h [] with
  | some h => cases h; assumption

/-- States with other features of the root, the same in both. -/
theorem Resembles.rooted (h : a.Resembles hit size b) {a' b' : Query}
    (ha : a'.leveledFeatures = a.leveledFeatures) (hb : b'.leveledFeatures = b.leveledFeatures)
    (root : b'.rootFeatures = a'.rootFeatures) : a'.Resembles hit size b' := by
  obtain ⟨htake, hfilter, hsort, hpage, -⟩ := leveledFeatures_inj.mp ha
  obtain ⟨htake', hfilter', hsort', hpage', -⟩ := leveledFeatures_inj.mp hb
  exact {
    root := root
    filter := by rw [hfilter, hfilter', h.filter]
    sort := by rw [hsort, hsort', h.sort]
    page := fun unhit => by rw [hpage, hpage', h.page unhit]
    sized := fun hit => by rw [hpage', h.sized hit]
    taken := by rw [htake, htake', h.taken]
    entries := fun name => by
      unfold entry?
      rw [htake, htake']
      exact h.entries name
    depth := by rw [Engine.takeDepth_eq, Engine.takeDepth_eq, htake, htake', ← Engine.takeDepth_eq,
      ← Engine.takeDepth_eq, h.depth] }

/-! Changing a size -/

/-- The query with another page size at a level. -/
def sizedAt (q : Query) (level : Level) (size : UInt64) : Query :=
  q.update { page := some { size := some size } } level true

theorem apply_size (q : Query) (size : UInt64) : q.apply { page := some { size := some size } } true =
    { q with page := some ⟨some size, q.page.bind Page.after⟩ } := by
  obtain ⟨space, resource, record, field, action, inspect, take, filter, sort, page, group⟩ := q
  cases page <;> rfl

/-- A state resembles what it becomes when a state nested in it does. -/
theorem resembles_modify {f : Query → Query} {first : String} {rest : List String}
    (entry : q.entry? first = some (.nested state)) (below : state.Resembles hit size (modify f rest state)) :
    q.Resembles false size (modify f (first :: rest) q) where
  root := rfl
  filter := rfl
  sort := rfl
  page _ := rfl
  sized := nofun
  taken := by
    rw [ entry?] at entry
    cases htake : q.take with
    | none => simp [htake] at entry
    | some entries => rfl
  entries name := by
    rw [entry?_modify]
    split
    · rename_i heq
      rw [heq, entry]
      exact .some (.nested _ _)
    · exact kindred_refl _
  depth := by
    have changed : Engine.entryDepth (.nested (modify f rest (q.under first))) =
        Engine.entryDepth (.nested state) := by
      rw [under_of_nested entry, Engine.entryDepth, Engine.entryDepth, below.depth]
    rw [Engine.takeDepth_eq, Engine.takeDepth_eq, modify]
    exact Engine.takesDepth_insert entry changed

theorem resized_modify {f : Query → Query} {target : List String}
    (h : q.follow target = some (.state state)) (same : state.Resembles true size (f state))
    (entries : ∀ name, Query.entry? (f state) name = state.entry? name) :
    q.Resized (· == target) size (modify f target q) := by
  -- along the target: the states on the way only change in what is nested in them, and names that turn
  -- off it lead to what they led to
  induction target generalizing q with
  | nil =>
    cases h
    intro names
    cases names with
    | nil => exact .some (.state same)
    | cons name names =>
      have led : (modify f [] state).follow (name :: names) = state.follow (name :: names) := by
        rw [follow, follow, modify, entries]
      rw [led]
      exact resembles_refl _
  | cons first rest ih =>
    rw [follow] at h
    split at h
    · cases h
    · rename_i inner entry
      intro names
      cases names with
      | nil => exact .some (.state (resembles_modify entry (ih h).self))
      | cons name names =>
        rw [follow, follow, entry?_modify]
        by_cases heq : name = first
        · subst heq
          rw [if_pos rfl, entry, under_of_nested entry]
          have below := ih h names
          simpa using below
        · have unhit : (name :: names == first :: rest) = false := by simp [heq]
          rw [if_neg heq]
          dsimp only
          rw [unhit]
          exact resembles_refl _
    · split at h <;> cases h

/-- A query whose state at a level gets another page size. -/
theorem resized_sizedAt {level : Level} (h : q.stateAt? level = some state) (size : UInt64) :
    q.Resized (· == level.names) size (q.sizedAt level size) := by
  rw [stateAt?_eq, below?_eq_some] at h
  refine resized_modify h ?_ fun name => ?_
  · rw [apply_size]
    have depth : Engine.takeDepth { state with page := some ⟨some size, state.page.bind Page.after⟩ } =
        Engine.takeDepth state := by rw [Engine.takeDepth_eq, Engine.takeDepth_eq]
    exact ⟨rfl, rfl, rfl, nofun, fun _ => rfl, rfl, fun _ => kindred_refl _, depth⟩
  · rw [apply_size]
    rfl

/-! The scopes of levels -/

/-- The names that lead to what governs a level: with a field as target, the level of its records is that
of the query. -/
def named (q : Query) (level : Level) : List String :=
  if q.field.isNone then level.names else Level.names level.tail

/-- Whether a name leads on to a state, from what names lead to. -/
def nests (q : Query) (names : List String) (name : String) : Bool :=
  ((q.below? names).bind fun state => state.entry? name).any Take.isNested

theorem named_enter {level : Level} (below : (q.field.isSome && level.isEmpty) = false) (name : String) :
    q.named (level.enter name) = q.named level ++ (Level.ofText name).names := by
  unfold named
  cases level with
  | nil =>
    have whole : q.field.isNone = true := by simpa using below
    rw [whole, if_pos rfl, if_pos rfl]
    exact List.filter_append ..
  | cons segment level => split <;> exact List.filter_append ..

/-- Below the root of a field, a level has the scope of what its names lead to. -/
theorem scope_named {level : Level} (below : (q.field.isSome && level.isEmpty) = false) {scope : Scope} :
    q.scope level = .ok scope ↔
      ∃ located, q.follow (q.named level) = some located ∧ scope = q.governed located := by
  unfold Query.scope locate at? named
  cases hfield : q.field with
  | none =>
    cases hfollow : q.follow level.names with
    | none => simp [hfollow]
    | some located => cases located <;> simp [hfollow, governed, hfield, eq_comm]
  | some name =>
    cases level with
    | nil => simp [hfield] at below
    | cons segment level =>
      simp only [Option.isNone_some, Bool.false_eq_true, if_false, List.tail_cons]
      cases hfollow : q.follow (Level.names level) with
      | none => simp
      | some located => cases located <;> simp [governed, hfield, eq_comm]

end Query

/-- Scopes of states that are the same but for the page size; one of nothing but ids is not hit. -/
inductive Scope.Resembles (hit : Bool) (size : UInt64) : Scope → Scope → Prop
  | ids (unhit : hit = false) : Resembles hit size .ids .ids
  | state {a b : Query} (h : a.Resembles hit size b) : Resembles hit size (.state a) (.state b)

/-- Whether a field is taken is told by which names are. -/
theorem shouldTake_some (f : Field) (entries : Entries Take) (idName : String) :
    shouldTake f (some entries) idName = ((entries.get? f.name).map Take.isTaken).getD
      (f.name == idName || ((entries.get? "*").map Take.isTaken).getD false) := by
  unfold shouldTake
  dsimp only
  cases entries.get? f.name with
  | some entry => rfl
  | none => cases entries.get? "*" <;> rfl

namespace Scope.Resembles
variable {scope scope' : Scope} {hit : Bool} {size : UInt64}

theorem filter (h : scope.Resembles hit size scope') :
    scope'.state?.bind Query.filter = scope.state?.bind Query.filter := by
  cases h with
  | ids => rfl
  | state h => exact h.filter

theorem sort (h : scope.Resembles hit size scope') :
    scope'.state?.bind Query.sort = scope.state?.bind Query.sort := by
  cases h with
  | ids => rfl
  | state h => exact h.sort

theorem page (h : scope.Resembles false size scope') : scope'.page? = scope.page? := by
  cases h with
  | ids => rfl
  | state h => exact h.page rfl

theorem pageSize (h : scope.Resembles hit size scope') (default : UInt64) :
    scope'.pageSize default = if hit then size else scope.pageSize default := by
  cases h with
  | ids unhit => rw [unhit]; rfl
  | @state a b h =>
    cases hit with
    | false => exact congrArg (fun page => (page.bind Page.size).getD default) (h.page rfl)
    | true => exact congrArg (·.getD default) (h.sized rfl)

/-- The same fields are taken. -/
theorem shouldTake (h : scope.Resembles hit size scope') (f : Field) (idName : String) :
    shouldTake f (scope'.taken idName) idName = RecordGraph.shouldTake f (scope.taken idName) idName := by
  cases h with
  | ids => rfl
  | @state a b h =>
    have same (name : String) : (b.entry? name).map Take.isTaken = (a.entry? name).map Take.isTaken := by
      have entry := h.entries name
      generalize a.entry? name = x at entry ⊢
      generalize b.entry? name = y at entry ⊢
      cases entry with
      | none => rfl
      | some h => cases h <;> rfl
    have taken := h.taken
    unfold Query.entry? at same
    change RecordGraph.shouldTake f b.take idName = RecordGraph.shouldTake f a.take idName
    cases ha : a.take with
    | none =>
      rw [ha, Option.isSome_none, Option.isSome_eq_false_iff, Option.isNone_iff_eq_none] at taken
      rw [taken]
    | some entries =>
      rw [ha] at taken same
      obtain ⟨entries', hb⟩ := Option.isSome_iff_exists.mp taken
      rw [hb] at same ⊢
      have named : (Entries.get? entries' f.name).map Take.isTaken =
          (Entries.get? entries f.name).map Take.isTaken := same f.name
      have starred : (Entries.get? entries' "*").map Take.isTaken =
          (Entries.get? entries "*").map Take.isTaken := same "*"
      rw [shouldTake_some, shouldTake_some, named, starred]

end Scope.Resembles

namespace Query
variable {q q' sub : Query} {hits : List String → Bool} {size : UInt64} {level : Level}

theorem Resized.field (h : q.Resized hits size q') : q'.field = q.field := by
  obtain ⟨-, -, -, field, -⟩ := rootFeatures_inj.mp h.self.root
  exact field

theorem Resized.named (h : q.Resized hits size q') (level : Level) : q'.named level = q.named level := by
  unfold Query.named
  rw [h.field]

/-- The same names lead on to states. -/
theorem Resized.nests (h : q.Resized hits size q') : q'.nests = q.nests := by
  funext names name
  have led := h names
  unfold Query.nests below?
  generalize q.follow names = found at led ⊢
  generalize q'.follow names = found' at led ⊢
  cases led with
  | none => rfl
  | some alike =>
    cases alike with
    | flag => rfl
    | @state a b alike =>
      have entry := alike.entries name
      dsimp only [Option.bind_some, Located.state?]
      generalize a.entry? name = x at entry ⊢
      generalize b.entry? name = y at entry ⊢
      cases entry with
      | none => rfl
      | some kindred => cases kindred <;> rfl

/-- Below the root of a field, levels have the same scopes up to the page size. -/
theorem Resized.scope (h : q.Resized hits size q') (below : (q.field.isSome && level.isEmpty) = false)
    {scope : Scope} (hscope : q.scope level = .ok scope) :
    ∃ scope', q'.scope level = .ok scope' ∧ scope.Resembles (hits (q.named level)) size scope' := by
  obtain ⟨located, hfollow, rfl⟩ := (scope_named below).mp hscope
  have below' : (q'.field.isSome && level.isEmpty) = false := by rw [h.field, below]
  have led := h (q.named level)
  rw [hfollow] at led
  generalize hfollow' : q'.follow (q.named level) = found at led
  cases led with
  | @some _ located' alike =>
    refine ⟨q'.governed located', (scope_named below').mpr ⟨located', ?_, rfl⟩, ?_⟩
    · rw [h.named, hfollow']
    · cases alike with
      | flag unhit taken => exact .ids unhit
      | @state a b alike =>
        unfold governed
        rw [h.field]
        cases q.field.isNone with
        | true => exact .state alike
        | false => exact .state (alike.rooted rfl rfl rfl)

/-! Children -/

theorem follow_leveled {a b : Query} (h : b.leveledFeatures = a.leveledFeatures) (name : String)
    (names : List String) : b.follow (name :: names) = a.follow (name :: names) := by
  obtain ⟨take, -⟩ := leveledFeatures_inj.mp h
  rw [follow, follow, entry?, entry?, take]

theorem follow_append_flag {names : List String} {taken : Bool} (h : q.follow names = some (.flag taken))
    (name : String) (more : List String) : q.follow (names ++ name :: more) = none := by
  induction names generalizing q with
  | nil => cases h
  | cons first names ih =>
    rw [follow] at h
    rw [List.cons_append, follow]
    split at h
    · rfl
    · exact ih h
    · simp

/-- The query of a child has what its key leads to, and features of the root that are told by the name
and by those of its parent. -/
theorem childQuery_rooted {key name : String} (h : Engine.childQuery q key name = .ok sub) :
    ∃ located, q.follow (Level.ofText key).names = some located ∧
      sub.leveledFeatures = (located.state?.getD {}).leveledFeatures ∧
      ∀ q' located', q'.rootFeatures = q.rootFeatures →
        q'.follow (Level.ofText key).names = some located' → ∃ sub',
          Engine.childQuery q' key name = .ok sub' ∧ sub'.rootFeatures = sub.rootFeatures ∧
            sub'.leveledFeatures = (located'.state?.getD {}).leveledFeatures := by
  unfold Engine.childQuery subquery? at h
  cases hat : q.at? (Level.ofText key) with
  | none =>
    rw [hat] at h
    cases h
  | some located =>
    rw [hat] at h
    cases h
    refine ⟨located, hat, ?_, fun q' located' root hat' => ?_⟩
    · cases located <;> split <;> rfl
    · obtain ⟨space, resource, record, field, action, inspect⟩ := rootFeatures_inj.mp root
      have located : q'.at? (Level.ofText key) = some located' := hat'
      unfold Engine.childQuery subquery?
      rw [located, space, resource, record, field, action, inspect]
      refine ⟨_, rfl, ?_, ?_⟩
      · split <;> rfl
      · cases located' <;> split <;> rfl

/-- What a state leads to below the names where it stands; in place of a flag, nothing. -/
theorem follow_below {names : List String} {located : Located} (h : q.follow names = some located)
    (leveled : sub.leveledFeatures = (located.state?.getD {}).leveledFeatures) (name : String)
    (more : List String) : sub.follow (name :: more) = q.follow (names ++ name :: more) := by
  rw [follow_leveled leveled]
  cases located with
  | flag taken =>
    rw [follow_append_flag h]
    rfl
  | state state => exact (follow_append _ h).symm

/-- The query of a child has other page sizes where its parent has. -/
theorem Resized.child (h : q.Resized hits size q') {key name : String}
    (hsub : Engine.childQuery q key name = .ok sub) :
    ∃ sub', Engine.childQuery q' key name = .ok sub' ∧
      sub.Resized (fun names => hits ((Level.ofText key).names ++ names)) size sub' := by
  obtain ⟨located, hfollow, leveled, rooted⟩ := childQuery_rooted hsub
  have led := h (Level.ofText key).names
  rw [hfollow] at led
  generalize hfollow' : q'.follow (Level.ofText key).names = found at led
  cases led with
  | @some _ located' alike =>
    obtain ⟨sub', hsub', root, leveled'⟩ := rooted q' located' h.self.root hfollow'
    refine ⟨sub', hsub', fun names => ?_⟩
    cases names with
    | nil =>
      dsimp only
      rw [List.append_nil]
      refine .some (.state ?_)
      cases alike with
      | flag unhit taken =>
        rw [unhit]
        exact (Resembles.refl {}).rooted leveled leveled' root
      | state alike => exact alike.rooted leveled leveled' root
    | cons first names =>
      rw [follow_below hfollow leveled, follow_below hfollow' leveled']
      exact h _

theorem FiltersBlind.child {request : Value} (h : q.FiltersBlind request) {key name : String}
    (hsub : Engine.childQuery q key name = .ok sub) : sub.FiltersBlind request := by
  obtain ⟨located, hfollow, leveled, -⟩ := childQuery_rooted hsub
  intro names state led predicate hp
  cases names with
  | nil =>
    cases led
    obtain ⟨-, filter, -⟩ := leveledFeatures_inj.mp leveled
    rw [filter] at hp
    cases located with
    | flag taken => cases hp
    | state state => exact h _ state hfollow predicate hp
  | cons first names =>
    rw [follow_below hfollow leveled] at led
    exact h _ state led predicate hp

end Query
end RecordGraph
