import RecordGraph.Proofs.Text.Base64
import RecordGraph.Proofs.Value.Canonical
import RecordGraph.Query.Blob

/-!
States are read back from their blobs, but for their numbers, each of which is read from its own text.
-/
namespace RecordGraph

/-- Induction over a state, with the hypothesis for every nested state. -/
@[elab_as_elim]
theorem Query.inductionOn {motive : Query → Prop}
    (step : ∀ q : Query, (∀ ts, q.take = some ts → ∀ name state, (name, .nested state) ∈ ts →
      motive state) → motive q) (q : Query) : motive q := by
  refine Query.rec (motive_1 := fun t => ∀ state, t = .nested state → motive state)
    (motive_2 := motive)
    (motive_3 := fun take => ∀ ts, take = some ts → ∀ name state, (name, .nested state) ∈ ts →
      motive state)
    (motive_4 := fun ts => ∀ name state, (name, .nested state) ∈ ts → motive state)
    (motive_5 := fun e => ∀ state, e.2 = .nested state → motive state) ?_ ?_ ?_ ?_ ?_ ?_ ?_ ?_ q
  · rintro taken state ⟨⟩
  · rintro state h _ ⟨⟩
    exact h
  · intro space resource record field action inspect take filter sort page group h
    exact step _ h
  · rintro ts ⟨⟩
  · rintro ts h _ ⟨⟩
    exact h
  · intro name state h
    cases h
  · intro e ts he hts name state hmem
    rcases List.mem_cons.mp hmem with rfl | hmem
    · exact he state rfl
    · exact hts name state hmem
  · exact fun _ _ h => h

/-- What is made of a feature, if it is given. -/
def ifGiven {α β : Type} (f : α → Option β) : Option α → Option (Option β)
  | some a => (f a).map some
  | none => some none

mutual
def Take.reread : Take → Option Take
  | .flag taken => some (.flag taken)
  | .nested state => state.reread.map .nested

/-- The state with every number of its values as its text is read. -/
def Query.reread : Query → Option Query
  | ⟨space, resource, record, field, action, inspect, take, filter, sort, page, group⟩ =>
    (ifGiven Value.rereadEntries inspect).bind fun inspect =>
      (match take with
        | some ts => (rereadTakes ts).map some
        | none => some none).bind fun take =>
        (ifGiven Value.reread filter).bind fun filter =>
          (ifGiven Value.rereadEntries group).map fun group =>
            ⟨space, resource, record, field, action, inspect, take, filter, sort, page, group⟩

def rereadTakes : List (String × Take) → Option (List (String × Take))
  | [] => some []
  | (name, t) :: ts => t.reread.bind fun u => (rereadTakes ts).map ((name, u) :: ·)
end

theorem present_append (field : String × Option Value) (fields : List (String × Option Value)) :
    present [field] ++ present fields = present (field :: fields) :=
  List.filterMap_append.symm

namespace Value

theorem rereadEntries_present_cons (name : String) (v? : Option Value)
    (fields : List (String × Option Value)) :
    rereadEntries (present ((name, v?) :: fields)) =
      (ifGiven reread v?).bind fun w? =>
        (rereadEntries (present fields)).map (present [(name, w?)] ++ ·) := by
  cases v? with
  | none =>
    rw [ifGiven, Option.bind_some]
    exact Option.map_id'.symm
  | some v =>
    have hcons : present ((name, some v) :: fields) = (name, v) :: present fields := rfl
    rw [hcons, rereadEntries, ifGiven, Option.bind_map]
    rfl

theorem rereadItems_strs (keys : List String) :
    rereadItems (keys.map .str) = some (keys.map .str) := by
  induction keys with
  | nil => rfl
  | cons k keys ih => rw [List.map_cons, rereadItems, ih]; rfl

theorem ifGiven_str (s : Option String) : ifGiven reread (s.map .str) = some (s.map .str) := by
  cases s <;> rfl

theorem ifGiven_obj (es : Option (Entries Value)) :
    ifGiven reread (es.map .obj) = (ifGiven rereadEntries es).map (Option.map .obj) := by
  cases es with
  | none => rfl
  | some es => simp [ifGiven, reread, Option.map_map, Function.comp_def]

end Value

theorem Page.reread_toValue (p : Page) : p.toValue.reread = some p.toValue := by
  obtain ⟨size, after⟩ := p
  have hsize : ifGiven Value.reread (size.map .uint) = some (size.map .uint) := by
    cases size with
    | none => rfl
    | some n => simp [ifGiven, Value.reread_uint]
  rw [Page.toValue, Value.reread, Value.rereadEntries_present_cons,
    Value.rereadEntries_present_cons, hsize, Value.ifGiven_str]
  cases size <;> cases after <;> rfl

namespace Query

/-- The value of the feature with a name, if the feature is given. -/
def feature? (q : Query) : String → Option Value
  | "space" => q.space.map .str
  | "resource" => q.resource.map .str
  | "record" => q.record.map .str
  | "field" => q.field.map .str
  | "action" => q.action.map fun a => .str a.name
  | "inspect" => q.inspect.map .obj
  | "take" => q.take.map fun ts => .obj (takesValue ts)
  | "where" => q.filter
  | "sort" => q.sort.map fun keys => .arr (keys.map .str)
  | "page" => q.page.map Page.toValue
  | "group" => q.group.map .obj
  | _ => none

theorem toValue_eq (q : Query) :
    q.toValue = .obj (present (features.map fun name => (name, q.feature? name))) := by
  obtain ⟨space, resource, record, field, action, inspect, take, filter, sort, page, group⟩ := q
  cases take <;> rfl

theorem reread_eq (q : Query) : q.reread =
    (ifGiven Value.rereadEntries q.inspect).bind fun inspect =>
      (ifGiven rereadTakes q.take).bind fun take =>
        (ifGiven Value.reread q.filter).bind fun filter =>
          (ifGiven Value.rereadEntries q.group).map fun group =>
            { q with inspect := inspect, take := take, filter := filter, group := group } := by
  obtain ⟨space, resource, record, field, action, inspect, take, filter, sort, page, group⟩ := q
  cases take <;> rfl

theorem reread_takesValue {ts : List (String × Take)}
    (h : ∀ name state, (name, .nested state) ∈ ts → state.toValue.reread = state.reread.map toValue) :
    Value.rereadEntries (takesValue ts) = (rereadTakes ts).map takesValue := by
  induction ts with
  | nil => rfl
  | cons e ts ih =>
    obtain ⟨name, t⟩ := e
    have ht : t.toValue.reread = t.reread.map Take.toValue := by
      cases t with
      | flag taken => rfl
      | nested state =>
        rw [Take.toValue, Take.reread, h name state List.mem_cons_self, Option.map_map]
        rfl
    rw [takesValue, Value.rereadEntries, rereadTakes, ht,
      ih fun name state hmem => h name state (List.mem_cons_of_mem _ hmem)]
    cases t.reread <;> cases rereadTakes ts <;> rfl

/-- A state and its value are reread alike. -/
theorem reread_toValue (q : Query) : q.toValue.reread = q.reread.map toValue := by
  induction q using Query.inductionOn with
  | step q ih =>
    have haction : ifGiven Value.reread (q.action.map fun a => .str a.name) =
        some (q.action.map fun a => .str a.name) := by
      cases q.action <;> rfl
    have hsort : ifGiven Value.reread (q.sort.map fun keys => .arr (keys.map .str)) =
        some (q.sort.map fun keys => .arr (keys.map .str)) := by
      cases q.sort with
      | none => rfl
      | some keys => simp [ifGiven, Value.reread, Value.rereadItems_strs]
    have hpage : ifGiven Value.reread (q.page.map Page.toValue) = some (q.page.map Page.toValue) := by
      cases q.page with
      | none => rfl
      | some p => simp [ifGiven, Page.reread_toValue]
    have htake : ifGiven Value.reread (q.take.map fun ts => .obj (takesValue ts)) =
        (ifGiven rereadTakes q.take).map (Option.map fun ts => .obj (takesValue ts)) := by
      cases hts : q.take with
      | none => rfl
      | some ts =>
        rw [Option.map_some, ifGiven, Value.reread, reread_takesValue (ih ts hts), ifGiven]
        cases rereadTakes ts <;> rfl
    rw [toValue_eq, reread_eq, Value.reread]
    simp only [features, List.map_cons, List.map_nil, feature?, Value.rereadEntries_present_cons,
      Value.ifGiven_str, Value.ifGiven_obj, haction, hsort, hpage, htake, Option.bind_some]
    cases ifGiven Value.rereadEntries q.inspect with
    | none => rfl
    | some inspect =>
    cases ifGiven rereadTakes q.take with
    | none => rfl
    | some take =>
    cases ifGiven Value.reread q.filter with
    | none => rfl
    | some filter =>
    cases ifGiven Value.rereadEntries q.group with
    | none => rfl
    | some group =>
      have hnil : Value.rereadEntries (present []) = some (present []) := rfl
      simp only [Option.bind_some, Option.map_some, toValue_eq, hnil, present_append, features,
        List.map_cons, List.map_nil, feature?]

/-! Reading a state from its value -/

/-- `l` is a level of `q`: the state itself or a state nested in it. -/
inductive IsLevel : Query → Query → Prop
  | self (q : Query) : IsLevel q q
  | nested {q l state : Query} {ts : List (String × Take)} {name : String}
    (take : q.take = some ts) (mem : (name, .nested state) ∈ ts) (level : IsLevel state l) :
    IsLevel q l

/-- The maps of a level have their keys in order. -/
structure Ordered (q : Query) : Prop where
  inspect : ∀ es, q.inspect = some es → (Value.obj es).Canonical
  take : ∀ ts, q.take = some ts → Entries.Sorted ts
  filter : ∀ v, q.filter = some v → v.Canonical
  group : ∀ es, q.group = some es → (Value.obj es).Canonical

/-- Read one feature, if it is given. -/
def readGiven? (name : String) (v? : Option Value) (q : Query) : Option Query :=
  match v? with
  | some v => read? name v q
  | none => some q

theorem ofEntries?_present_cons (name : String) (v? : Option Value)
    (fields : List (String × Option Value)) :
    ofEntries? (present ((name, v?) :: fields)) =
      (ofEntries? (present fields)).bind (readGiven? name v?) := by
  cases v? with
  | none => exact (Option.bind_fun_some _).symm
  | some v => rfl

/-- Features put in the order of their names. -/
theorem canonical_present {names : List String} (sorted : List String) (value : String → Option Value)
    (perm : names.Perm sorted) (hsorted : sorted.Pairwise (· < ·)) :
    (Value.obj (present (names.map fun name => (name, value name)))).canonical =
      .obj (present (sorted.map fun name => (name, (value name).map Value.canonical))) := by
  have hvalues : Value.canonicalEntries (present (names.map fun name => (name, value name))) =
      present (names.map fun name => (name, (value name).map Value.canonical)) := by
    rw [Value.canonicalEntries_eq]
    clear perm
    induction names with
    | nil => rfl
    | cons name names ih =>
      rw [List.map_cons, List.map_cons, ← present_append, ← present_append, List.map_append, ih]
      cases value name <;> rfl
  have hkeys : (Entries.keys
      (present (sorted.map fun name => (name, (value name).map Value.canonical)))).Sublist sorted := by
    clear perm hsorted
    induction sorted with
    | nil => exact .slnil
    | cons name names ih =>
      rw [List.map_cons, ← present_append]
      cases value name with
      | none => exact ih.cons _
      | some v => exact ih.cons_cons _
  rw [Value.canonical, hvalues]
  congr 1
  exact Entries.ofList_of_perm ((perm.map _).filterMap _) (List.pairwise_map.mp (hsorted.sublist hkeys))

/-- A feature is read from what it is written as: `set` puts it in place. -/
theorem readGiven?_of {α : Type} {name : String} {write : α → Value} {x : Option α} {q r : Query}
    (absent : x = none → r = q)
    (given : ∀ a, x = some a → read? name (write a).canonical q = some r) :
    readGiven? name ((x.map write).map Value.canonical) q = some r := by
  cases x with
  | none => rw [absent rfl]; rfl
  | some a => exact given a rfl

theorem read?_filter {v : Value} {q : Query} (canonical : v.Canonical) (given : v ≠ .null) :
    read? "where" v.canonical q = some { q with filter := some v } := by
  rw [Value.canonical_eq_self canonical]
  cases v with
  | null => exact absurd rfl given
  | bool | num | str | arr | obj => rfl

theorem read?_sort (keys : List String) (q : Query) :
    read? "sort" (Value.arr (keys.map .str)).canonical q = some { q with sort := some keys } := by
  have hstrs : (keys.map Value.str).mapM Value.str? = some keys := by
    induction keys with
    | nil => rfl
    | cons k keys ih => simp [ih, Value.str?]
  have hcanonical : (Value.arr (keys.map .str)).Canonical :=
    Value.canonical_arr_iff.mpr (by simp [Value.Canonical])
  rw [Value.canonical_eq_self hcanonical]
  simp [read?, features, setFeature, Value.arr?, hstrs]

theorem read?_page (p : Page) (q : Query) :
    read? "page" p.toValue.canonical q = some { q with page := some p } := by
  obtain ⟨size, after⟩ := p
  let value (name : String) : Option Value :=
    if name = "size" then size.map .uint else after.map .str
  have hcanonical : (Page.toValue ⟨size, after⟩).canonical =
      .obj (present (["after", "size"].map fun name => (name, (value name).map Value.canonical))) :=
    canonical_present ["after", "size"] value (.swap "after" "size" []) (by decide)
  have hread : Page.ofValue? (Page.toValue ⟨size, after⟩).canonical = some ⟨size, after⟩ := by
    rw [hcanonical]
    cases size with
    | none => cases after <;> rfl
    | some n =>
      have hset (p : Page) : p.setField "size" (.uint n) = some { p with size := some n } := by
        rw [Value.uint, Page.setField, ← Value.uint, Value.uint?_uint]
        · rfl
        · exact fun h => by cases h
      cases after with
      | none => exact hset {}
      | some s => exact hset { after := some s }
  have hset (v : Value) (es : Entries Value) (hv : v = .obj es)
      (h : Page.ofValue? v = some ⟨size, after⟩) :
      read? "page" v q = some { q with page := some ⟨size, after⟩ } := by
    subst hv
    simp [read?, features, setFeature, h]
  exact hset _ _ hcanonical hread

/-- Taken names are read from what they are written as. -/
theorem takesOf?_takesValue {ts : List (String × Take)}
    (h : ∀ name state, (name, .nested state) ∈ ts → ofValue? state.toValue.canonical = some state) :
    takesOf? (Value.canonicalEntries (takesValue ts)) = some ts := by
  induction ts with
  | nil => rfl
  | cons e ts ih =>
    obtain ⟨name, t⟩ := e
    have ht : Take.ofValue? t.toValue.canonical = some t := by
      cases t with
      | flag taken => rfl
      | nested state =>
        have hstate := h name state List.mem_cons_self
        rw [toValue_eq, Value.canonical] at hstate
        rw [Take.toValue, toValue_eq, Value.canonical, Take.ofValue?]
        exact congrArg _ hstate
    rw [takesValue, Value.canonicalEntries, takesOf?, ht,
      ih fun name state hmem => h name state (List.mem_cons_of_mem _ hmem)]
    rfl

theorem keys_takesValue (ts : List (String × Take)) :
    Entries.keys (Value.canonicalEntries (takesValue ts)) = Entries.keys ts := by
  induction ts with
  | nil => rfl
  | cons e ts ih => exact congrArg _ ih

theorem read?_take {ts : List (String × Take)} (sorted : Entries.Sorted ts) (q : Query)
    (h : ∀ name state, (name, .nested state) ∈ ts → ofValue? state.toValue.canonical = some state) :
    read? "take" (Value.obj (takesValue ts)).canonical q = some { q with take := some ts } := by
  rw [Value.canonical, Entries.ofList_of_sorted (sorted.of_keys (keys_takesValue ts).symm), read?,
    if_neg (by decide), if_pos rfl, takesOf?_takesValue h]
  rfl

/-! Putting the features of a state in place, one after the other -/

section place
variable (q : Query) {r : Query}

theorem place_space (absent : r.space = none) :
    readGiven? "space" ((q.feature? "space").map Value.canonical) r =
      some { r with space := q.space } :=
  readGiven?_of (fun h => by cases r; subst absent; rw [h]) fun s h => by rw [h]; rfl

theorem place_resource (absent : r.resource = none) :
    readGiven? "resource" ((q.feature? "resource").map Value.canonical) r =
      some { r with resource := q.resource } :=
  readGiven?_of (fun h => by cases r; subst absent; rw [h]) fun s h => by rw [h]; rfl

theorem place_record (absent : r.record = none) :
    readGiven? "record" ((q.feature? "record").map Value.canonical) r =
      some { r with record := q.record } :=
  readGiven?_of (fun h => by cases r; subst absent; rw [h]) fun s h => by rw [h]; rfl

theorem place_field (absent : r.field = none) :
    readGiven? "field" ((q.feature? "field").map Value.canonical) r =
      some { r with field := q.field } :=
  readGiven?_of (fun h => by cases r; subst absent; rw [h]) fun s h => by rw [h]; rfl

theorem place_action (absent : r.action = none) :
    readGiven? "action" ((q.feature? "action").map Value.canonical) r =
      some { r with action := q.action } :=
  readGiven?_of (fun h => by cases r; subst absent; rw [h]) fun a h => by rw [h]; cases a <;> rfl

theorem place_inspect (ordered : q.Ordered) (absent : r.inspect = none) :
    readGiven? "inspect" ((q.feature? "inspect").map Value.canonical) r =
      some { r with inspect := q.inspect } :=
  readGiven?_of (fun h => by cases r; subst absent; rw [h]) fun es h => by
    rw [h, Value.canonical_eq_self (ordered.inspect es h)]
    rfl

theorem place_group (ordered : q.Ordered) (absent : r.group = none) :
    readGiven? "group" ((q.feature? "group").map Value.canonical) r =
      some { r with group := q.group } :=
  readGiven?_of (fun h => by cases r; subst absent; rw [h]) fun es h => by
    rw [h, Value.canonical_eq_self (ordered.group es h)]
    rfl

theorem place_take (ordered : q.Ordered) (absent : r.take = none)
    (nested : ∀ ts, q.take = some ts → ∀ name state, (name, .nested state) ∈ ts →
      ofValue? state.toValue.canonical = some state) :
    readGiven? "take" ((q.feature? "take").map Value.canonical) r = some { r with take := q.take } :=
  readGiven?_of (fun h => by cases r; subst absent; rw [h]) fun ts h => by
    rw [h, read?_take (ordered.take ts h) r (nested ts h)]

theorem place_where (ordered : q.Ordered) (given : q.filter ≠ some .null) (absent : r.filter = none) :
    readGiven? "where" ((q.feature? "where").map Value.canonical) r =
      some { r with filter := q.filter } := by
  rw [feature?]
  cases h : q.filter with
  | none =>
    cases r
    subst absent
    rfl
  | some v => exact read?_filter (ordered.filter v h) fun hv => given (by rw [h, hv])

theorem place_sort (absent : r.sort = none) :
    readGiven? "sort" ((q.feature? "sort").map Value.canonical) r = some { r with sort := q.sort } :=
  readGiven?_of (fun h => by cases r; subst absent; rw [h]) fun keys h => by rw [h, read?_sort]

theorem place_page (absent : r.page = none) :
    readGiven? "page" ((q.feature? "page").map Value.canonical) r = some { r with page := q.page } :=
  readGiven?_of (fun h => by cases r; subst absent; rw [h]) fun p h => by rw [h, read?_page]

end place

/-- A state is read from its value with the maps of the value put in order. -/
theorem ofValue?_toValue (q : Query) (ordered : ∀ l, q.IsLevel l → l.Ordered)
    (given : ∀ l, q.IsLevel l → l.filter ≠ some .null) : ofValue? q.toValue.canonical = some q := by
  induction q using Query.inductionOn with
  | step q ih =>
    have hordered := ordered q (.self q)
    have hgiven := given q (.self q)
    have hnested : ∀ ts, q.take = some ts → ∀ name state, (name, .nested state) ∈ ts →
        ofValue? state.toValue.canonical = some state := by
      intro ts hts name state hmem
      exact ih ts hts name state hmem (fun l hl => ordered l (.nested hts hmem hl))
        (fun l hl => given l (.nested hts hmem hl))
    have hnil : ofEntries? (present []) = some {} := rfl
    rw [toValue_eq, canonical_present ["action", "field", "group", "inspect", "page", "record",
      "resource", "sort", "space", "take", "where"] q.feature? (by decide) (by decide), ofValue?]
    simp only [List.map_cons, List.map_nil, ofEntries?_present_cons]
    rw [hnil, Option.bind_some, place_where q hordered hgiven rfl,
      Option.bind_some, place_take q hordered rfl hnested, Option.bind_some, place_space q rfl,
      Option.bind_some, place_sort q rfl, Option.bind_some, place_resource q rfl,
      Option.bind_some, place_record q rfl, Option.bind_some, place_page q rfl,
      Option.bind_some, place_inspect q hordered rfl, Option.bind_some, place_group q hordered rfl,
      Option.bind_some, place_field q rfl, Option.bind_some, place_action q rfl]
    dsimp only
    cases q
    rfl

/-! Rereading keeps what is asked of a state -/

theorem rereadTakes_eq_some {ts us : List (String × Take)} :
    rereadTakes ts = some us ↔ List.Forall₂ (fun t u => t.1 = u.1 ∧ t.2.reread = some u.2) ts us := by
  induction ts generalizing us with
  | nil => simp [rereadTakes, eq_comm]
  | cons t ts ih =>
    rw [rereadTakes, Option.bind_eq_some_iff, List.forall₂_cons_left_iff]
    simp only [Option.map_eq_some_iff, ih]
    constructor
    · rintro ⟨u, hu, us, hus, rfl⟩
      exact ⟨(t.1, u), us, ⟨rfl, hu⟩, hus, rfl⟩
    · rintro ⟨⟨name, u⟩, us, ⟨rfl, hu⟩, hus, rfl⟩
      exact ⟨u, hu, us, hus, rfl⟩

theorem ifGiven_eq_some {α β : Type} {f : α → Option β} {x : Option α} {y : Option β}
    (h : ifGiven f x = some y) {b : β} (hb : y = some b) : ∃ a, x = some a ∧ f a = some b := by
  cases x with
  | none =>
    cases h
    cases hb
  | some a =>
    obtain ⟨b', hb', rfl⟩ := Option.map_eq_some_iff.mp h
    cases hb
    exact ⟨a, rfl, hb'⟩

section reread
variable {q r : Query}

/-- Where the features of a reread state come from. -/
theorem reread_eq_some (h : q.reread = some r) :
    ifGiven Value.rereadEntries q.inspect = some r.inspect ∧ ifGiven rereadTakes q.take = some r.take ∧
      ifGiven Value.reread q.filter = some r.filter ∧
      ifGiven Value.rereadEntries q.group = some r.group := by
  rw [reread_eq] at h
  obtain ⟨inspect, hinspect, h⟩ := Option.bind_eq_some_iff.mp h
  obtain ⟨take, htake, h⟩ := Option.bind_eq_some_iff.mp h
  obtain ⟨filter, hfilter, h⟩ := Option.bind_eq_some_iff.mp h
  obtain ⟨group, hgroup, rfl⟩ := Option.map_eq_some_iff.mp h
  exact ⟨hinspect, htake, hfilter, hgroup⟩

theorem level_of_reread (h : q.reread = some r) {m : Query} (hm : r.IsLevel m) :
    ∃ l, q.IsLevel l ∧ l.reread = some m := by
  induction hm generalizing q with
  | self r => exact ⟨q, .self q, h⟩
  | nested take mem _ ih =>
    obtain ⟨ts, hts, hreread⟩ := ifGiven_eq_some (reread_eq_some h).2.1 take
    obtain ⟨⟨name, t⟩, ht, -, hstate⟩ := (rereadTakes_eq_some.mp hreread).exists_left mem
    cases t with
    | flag taken => cases hstate
    | nested state =>
      obtain ⟨_, hs, ⟨⟩⟩ := Option.map_eq_some_iff.mp hstate
      obtain ⟨l, hl, hlm⟩ := ih hs
      exact ⟨l, .nested hts ht hl, hlm⟩

theorem Ordered.reread (h : q.reread = some r) (ordered : q.Ordered) : r.Ordered := by
  obtain ⟨hinspect, htake, hfilter, hgroup⟩ := reread_eq_some h
  have hentries {es fs : Entries Value} (hes : (Value.obj es).Canonical)
      (hfs : Value.rereadEntries es = some fs) : (Value.obj fs).Canonical :=
    Value.canonical_of_reread hes (by rw [Value.reread, hfs]; rfl)
  constructor
  · intro fs hfs
    obtain ⟨es, hes, hreread⟩ := ifGiven_eq_some hinspect hfs
    exact hentries (ordered.inspect es hes) hreread
  · intro us hus
    obtain ⟨ts, hts, hreread⟩ := ifGiven_eq_some htake hus
    have hkeys := (rereadTakes_eq_some.mp hreread).imp fun _ _ h => h.1
    exact (ordered.take ts hts).of_keys (Entries.keys_of_forall₂ hkeys)
  · intro w hw
    obtain ⟨v, hv, hreread⟩ := ifGiven_eq_some hfilter hw
    exact Value.canonical_of_reread (ordered.filter v hv) hreread
  · intro fs hfs
    obtain ⟨es, hes, hreread⟩ := ifGiven_eq_some hgroup hfs
    exact hentries (ordered.group es hes) hreread

theorem filter_of_reread (h : q.reread = some r) (given : q.filter ≠ some .null) :
    r.filter ≠ some .null := by
  intro hnull
  obtain ⟨v, hv, hreread⟩ := ifGiven_eq_some (reread_eq_some h).2.2.1 hnull
  cases v with
  | null => exact given hv
  | bool | str => cases hreread
  | num | arr | obj =>
    obtain ⟨_, _, ⟨⟩⟩ := Option.map_eq_some_iff.mp hreread

end reread

theorem encodeState_isEmpty (q : Query) : q.encodeState.isEmpty = false := by
  rw [String.isEmpty_eq_false_iff, encodeState, Ne, Text.Base64.encode_eq_empty]
  intro hnil
  have hoctets := Value.octets_encode q.toValue.text
  obtain ⟨c, cs, hcs, -⟩ := q.toValue.textOctets_chars
  rw [hnil, Value.text, String.toList_ofList, hcs] at hoctets
  cases hoctets

/-- A blob holds the state it was made of, with its numbers reread. -/
theorem decodeState_encodeState (q : Query) (ordered : ∀ l, q.IsLevel l → l.Ordered)
    (given : ∀ l, q.IsLevel l → l.filter ≠ some .null) (hdepth : q.toValue.depth ≤ Value.maxDepth) :
    decodeState q.encodeState = q.reread := by
  have hread : (Value.readBytes (Text.Utf8.encode q.toValue.text)).toOption =
      q.reread.map fun r => r.toValue.canonical := by
    rw [Value.readBytes, Except.toOption_map, Value.readWritten_text hdepth, reread_toValue,
      Option.map_map]
    rfl
  rw [decodeState, encodeState_isEmpty, encodeState, Text.Base64.decode_encode, Option.bind_some, hread]
  cases hreread : q.reread with
  | none => rfl
  | some r =>
    have hr : ofValue? r.toValue.canonical = some r := by
      apply ofValue?_toValue
      · intro m hm
        obtain ⟨l, hl, hlm⟩ := level_of_reread hreread hm
        exact (ordered l hl).reread hlm
      · intro m hm
        obtain ⟨l, hl, hlm⟩ := level_of_reread hreread hm
        exact filter_of_reread hlm (given l hl)
    rw [toValue_eq, Value.canonical] at hr
    rw [Option.map_some, toValue_eq, Value.canonical]
    exact hr

end Query
end RecordGraph
