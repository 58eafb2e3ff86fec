import RecordGraph.Proofs.Entries
import RecordGraph.Query.State

/-!
Writing at a level. To change the state that relation names lead to is to change what they lead to and
nothing beside their way: levels that part from it lead where they led, and the states on the way keep
all but the entry that leads on.
-/
namespace RecordGraph

/-- The state that something located is; a flag is none. -/
def Located.state? : Located → Option Query
  | .flag _ => none
  | .state q => some q

namespace Query
variable {f : Query → Query} {q state : Query} {name : String} {names rest : List String}

/-! Following names -/

/-- The state that relation names lead to. -/
def below? (q : Query) (names : List String) : Option Query := (q.follow names).bind Located.state?

theorem stateAt?_eq (q : Query) (level : Level) : q.stateAt? level = q.below? level.names := by
  unfold stateAt? at? below?
  rcases q.follow level.names with - | (taken | state) <;> rfl

theorem below?_eq_some : q.below? names = some state ↔ q.follow names = some (.state state) := by
  unfold below?
  rcases q.follow names with - | (taken | other) <;> simp [Located.state?]

/-- The state at a name, an empty one in place of a flag or of nothing. -/
def under (q : Query) (name : String) : Query := ((q.entry? name).getD (.flag true)).stateOrEmpty

theorem under_of_nested (h : q.entry? name = some (.nested state)) : q.under name = state := by
  rw [under, h]
  rfl

/-- Below a name that has no state, nothing is led to. -/
theorem follow_under (filled : rest ≠ []) : (q.under name).follow rest = q.follow (name :: rest) := by
  obtain ⟨next, rest, rfl⟩ := List.exists_cons_of_ne_nil filled
  rw [under, follow.eq_2 q name]
  rcases q.entry? name with - | (taken | state) <;> rfl

/-- The state a name leads on to, or an empty one. -/
theorem below?_under : ((q.under name).below? rest).getD {} = (q.below? (name :: rest)).getD {} := by
  cases rest with
  | nil =>
    rw [below?, below?, under, follow.eq_2 q name]
    rcases q.entry? name with - | (taken | state) <;> rfl
  | cons next rest => rw [below?, follow_under (List.cons_ne_nil _ _), below?]

theorem follow_append (more : List String) (h : q.follow names = some (.state state)) :
    q.follow (names ++ more) = state.follow more := by
  induction names generalizing q with
  | nil =>
    cases h
    rfl
  | cons name names ih =>
    rw [List.cons_append, follow]
    rw [follow] at h
    split at h
    · cases h
    · exact ih h
    · split at h <;> cases h

/-! Changing what names lead to -/

theorem entry?_modify (f : Query → Query) (first : String) (rest : List String) (q : Query)
    (name : String) : Query.entry? (modify f (first :: rest) q) name =
      if name = first then some (.nested (modify f rest (q.under first))) else q.entry? name := by
  rw [modify, entry?, Option.getD_some, ← Entries.get?, Entries.get?_insert]
  rfl

/-- A change below a name leaves the other features of the state as they are. -/
theorem modify_features (f : Query → Query) (first : String) (rest : List String) (q : Query) :
    { modify f (first :: rest) q with take := q.take } = q := by
  cases q
  rfl

theorem follow_modify (f : Query → Query) (names : List String) (q : Query) :
    (modify f names q).follow names = some (.state (f ((q.below? names).getD {}))) := by
  induction names generalizing q with
  | nil => rfl
  | cons name rest ih => rw [follow, entry?_modify, if_pos rfl, ← below?_under, ← ih]

/-- Names that part from those that lead to a change lead where they led. -/
theorem follow_modify_apart {other : List String} (h : ¬names <+: other) (h' : ¬other <+: names) :
    (modify f names q).follow other = q.follow other := by
  induction names generalizing q other with
  | nil => exact absurd List.nil_prefix h
  | cons name names ih =>
    cases other with
    | nil => exact absurd List.nil_prefix h'
    | cons first other =>
      rw [follow, entry?_modify]
      by_cases same : first = name
      · subst same
        rw [List.cons_prefix_cons] at h h'
        have apart := ih (q := q.under first) (fun hp => h ⟨rfl, hp⟩) fun hp => h' ⟨rfl, hp⟩
        have filled : other ≠ [] := by
          rintro rfl
          exact h' ⟨rfl, List.nil_prefix⟩
        rw [if_pos rfl, ← follow_under filled, ← apart]
      · rw [if_neg same, follow]

/-- A state on the way to a change is changed below. -/
theorem follow_modify_append (rest : List String) (h : q.follow names = some (.state state)) :
    (modify f (names ++ rest) q).follow names = some (.state (modify f rest state)) := by
  induction names generalizing q with
  | nil =>
    cases h
    rfl
  | cons name names ih =>
    rw [follow] at h
    rw [List.cons_append, follow, entry?_modify, if_pos rfl]
    split at h
    · cases h
    · rename_i inner entry
      rw [under_of_nested entry]
      exact ih h
    · split at h <;> cases h

/-- To apply a patch at a level is to apply it to the state there, an empty one if there is none. What
stands at a level that parts from it is what stood there, and a state above it keeps its features and
the entries that do not lead on to it. -/
theorem update_local (q patch : Query) (level : Level) (merge : Bool) :
    (q.update patch level merge).stateAt? level =
        some (((q.stateAt? level).getD {}).apply patch merge) ∧
      (∀ other : Level, ¬level.names <+: other.names → ¬other.names <+: level.names →
        (q.update patch level merge).at? other = q.at? other) ∧
      ∀ (above : Level) (name : String) (rest : List String) (state : Query),
        level.names = above.names ++ name :: rest → q.at? above = some (.state state) →
        ∃ changed, (q.update patch level merge).at? above = some (.state changed) ∧
          { changed with take := state.take } = state ∧
          ∀ other, other ≠ name → changed.entry? other = state.entry? other := by
  refine ⟨?_, fun other h h' => follow_modify_apart h h', ?_⟩
  · rw [stateAt?_eq, stateAt?_eq, below?_eq_some]
    exact follow_modify _ _ _
  · intro above name rest state hnames hstate
    have changed := follow_modify_append (f := fun state => state.apply patch merge)
      (name :: rest) hstate
    rw [← hnames] at changed
    refine ⟨_, changed, modify_features _ _ _ _, fun other hother => ?_⟩
    rw [entry?_modify, if_neg hother]

/-- Posts taken with their tags, and their authors as they are. -/
def tagged : Query where
  take := some [("author", .flag true), ("posts", .nested {
    filter := some (.str "open")
    take := some [("tags", .nested { sort := some ["name"] }), ("title", .flag true)] })]

/-- A page of the tags of posts is put below posts, where no other name leads elsewhere than before. -/
theorem update_local_tagged :
    let level := Level.ofText "posts..tags"
    let page : Query := { page := some { size := some 5 } }
    (tagged.update page level true).stateAt? level =
        some { sort := some ["name"], page := some { size := some 5 } } ∧
      (tagged.update page level true).at? ["posts", "title"] = some (.flag true) ∧
      (tagged.update page level true).at? ["posts", "labels"] = none ∧
      ∃ posts, (tagged.update page level true).at? ["posts"] = some (.state posts) ∧
        posts.filter = some (.str "open") ∧ posts.entry? "title" = some (.flag true) := by
  intro level page
  have names : level.names = ["posts", "tags"] := by decide
  obtain ⟨at_, apart, above⟩ := update_local tagged page level true
  have title := apart ["posts", "title"] (by rw [names]; decide) (by rw [names]; decide)
  have labels := apart ["posts", "labels"] (by rw [names]; decide) (by rw [names]; decide)
  obtain ⟨posts, hposts, hfeatures, hentries⟩ := above ["posts"] "tags" [] _ names rfl
  refine ⟨at_, title, labels, posts, hposts, ?_, hentries "title" (by decide)⟩
  exact congrArg Query.filter hfeatures

end Query
end RecordGraph
