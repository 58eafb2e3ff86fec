import RecordGraph.Proofs.Query.Edits
import RecordGraph.Proofs.Query.Leaves

/-!
Edits that commute. A feature that two patches set together is one of their maps, merged leaf by leaf,
or a page; what they set apart, at one level or at two, can be set in either order, since a state made
on the way keeps what it stands in for.
-/
namespace RecordGraph
open Value (leafMap)

/-! Maps -/

namespace Value

/-- Entries merged one after the other, at two keys or with values that can be merged in either order. -/
theorem mergeEntries_comm {k l : String} {v w : Value}
    (h : k = l → ∀ u : Value, (u.onto v).onto w = (u.onto w).onto v) (es : Entries Value) :
    mergeEntries (mergeEntries es [(k, v)]) [(l, w)] = mergeEntries (mergeEntries es [(l, w)]) [(k, v)] := by
  simp only [mergeEntries, Entries.get?_insert]
  by_cases hkey : k = l
  · subst hkey
    rw [if_pos rfl, if_pos rfl, Entries.insert_insert, Entries.insert_insert, Option.getD_some,
      Option.getD_some, h rfl]
  · rw [if_neg hkey, if_neg (Ne.symm hkey), Entries.insert_comm hkey]

/-- Values under paths that part ways. -/
theorem onto_nestAlong_comm {path path' : List String} (h : ¬path <+: path') (h' : ¬path' <+: path)
    (v w u : Value) : (u.onto (Param.nestAlong v path)).onto (Param.nestAlong w path') =
      (u.onto (Param.nestAlong w path')).onto (Param.nestAlong v path) := by
  induction path generalizing path' u with
  | nil => exact absurd List.nil_prefix h
  | cons k path ih =>
    cases path' with
    | nil => exact absurd List.nil_prefix h'
    | cons l path' =>
      rw [Param.nestAlong, Param.nestAlong, onto_node, onto_node, onto_node, onto_node]
      refine congrArg obj (mergeEntries_comm (fun hkey u => ?_) (u.obj?.getD []))
      subst hkey
      rw [List.cons_prefix_cons] at h h'
      exact ih (fun hp => h ⟨rfl, hp⟩) (fun hp => h' ⟨rfl, hp⟩) u

theorem mergeMap_leafMap (es : Option (Entries Value)) (l : List String × Value) :
    mergeMap true es (some (leafMap l)) = some (mergeEntries (es.getD []) (leafMap l)) := by
  cases es with
  | none => exact congrArg some (mergeEntries_nil_leafMap l).symm
  | some es => rfl

/-- Leaves of one map. -/
theorem mergeMap_comm {l m : List String × Value} (h : ¬l.1 <+: m.1) (h' : ¬m.1 <+: l.1)
    (es : Option (Entries Value)) :
    mergeMap true (mergeMap true es (some (leafMap l))) (some (leafMap m)) =
      mergeMap true (mergeMap true es (some (leafMap m))) (some (leafMap l)) := by
  simp only [mergeMap_leafMap, Option.getD_some]
  obtain ⟨path, v⟩ := l
  obtain ⟨path', w⟩ := m
  cases path with
  | nil => exact absurd List.nil_prefix h
  | cons k path =>
    cases path' with
    | nil => exact absurd List.nil_prefix h'
    | cons l path' =>
      refine congrArg some (mergeEntries_comm (fun hkey u => ?_) _)
      subst hkey
      rw [List.cons_prefix_cons] at h h'
      exact onto_nestAlong_comm (fun hp => h ⟨rfl, hp⟩) (fun hp => h' ⟨rfl, hp⟩) v w u

end Value

namespace Query

/-! Patches -/

/-- Two patches that may be applied in either order: no feature is replaced by both, and what both merge
into merges them in either order. -/
structure Apart (p r : Query) : Prop where
  space : p.space = none ∨ r.space = none
  resource : p.resource = none ∨ r.resource = none
  record : p.record = none ∨ r.record = none
  field : p.field = none ∨ r.field = none
  action : p.action = none ∨ r.action = none
  take : p.take = none ∨ r.take = none
  filter : p.filter = none ∨ r.filter = none
  sort : p.sort = none ∨ r.sort = none
  inspect : ∀ es, mergeMap true (mergeMap true es p.inspect) r.inspect =
    mergeMap true (mergeMap true es r.inspect) p.inspect
  page : ∀ page, mergePage true (mergePage true page p.page) r.page =
    mergePage true (mergePage true page r.page) p.page
  group : ∀ es, mergeMap true (mergeMap true es p.group) r.group =
    mergeMap true (mergeMap true es r.group) p.group

theorem or_comm_of_none {α : Type} {a b : Option α} (h : a = none ∨ b = none) (x : Option α) :
    b.or (a.or x) = a.or (b.or x) := by
  rcases h with rfl | rfl <;> rw [Option.none_or, Option.none_or]

/-- A patch, feature by feature. -/
theorem apply_eq (q p : Query) : q.apply p true =
    { space := p.space.or q.space
      resource := p.resource.or q.resource
      record := p.record.or q.record
      field := p.field.or q.field
      action := p.action.or q.action
      inspect := mergeMap true q.inspect p.inspect
      take := (q.apply p true).take
      filter := p.filter.or q.filter
      sort := p.sort.or q.sort
      page := mergePage true q.page p.page
      group := mergeMap true q.group p.group } := by
  obtain ⟨space, resource, record, field, action, inspect, take, filter, sort, page, group⟩ := p
  cases take <;> rfl

theorem apply_comm {p r : Query} (h : p.Apart r) (q : Query) :
    (q.apply p true).apply r true = (q.apply r true).apply p true := by
  have htake : ((q.apply p true).apply r true).take = ((q.apply r true).apply p true).take := by
    rw [take_apply, take_apply, take_apply, take_apply]
    rcases h.take with hnone | hnone <;> rw [hnone]
  rw [apply_eq (q.apply p true), apply_eq (q.apply r true), htake, apply_eq q p, apply_eq q r]
  simp only [or_comm_of_none h.space, or_comm_of_none h.resource, or_comm_of_none h.record,
    or_comm_of_none h.field, or_comm_of_none h.action, or_comm_of_none h.filter,
    or_comm_of_none h.sort, h.inspect, h.page, h.group]

/-- A patch that takes names as they are, in their order. -/
def Unshaped (p : Query) : Prop :=
  ∀ ts, p.take = some ts → Entries.Sorted ts ∧ ∀ e ∈ ts, ∃ taken, e.2 = .flag taken

/-! States on the way -/

/-- Change the state at a name, an empty one where there is none. -/
def changeAt (f : Query → Query) (name : String) (ts : Entries Take) : Entries Take :=
  ts.insert name (.nested (f ((ts.get? name).getD (.flag true)).stateOrEmpty))

theorem modify_cons (f : Query → Query) (name : String) (rest : List String) (q : Query) :
    modify f (name :: rest) q = { q with take := some (changeAt (modify f rest) name (q.take.getD [])) } :=
  rfl

/-- Changes at one name or at two. -/
theorem changeAt_comm {f g : Query → Query} {name name' : String}
    (h : name = name' → ∀ q, f (g q) = g (f q)) (ts : Entries Take) :
    changeAt f name (changeAt g name' ts) = changeAt g name' (changeAt f name ts) := by
  simp only [changeAt, Entries.get?_insert]
  by_cases hname : name = name'
  · subst hname
    rw [if_pos rfl, if_pos rfl, Entries.insert_insert, Entries.insert_insert, Option.getD_some,
      Option.getD_some, Take.stateOrEmpty, Take.stateOrEmpty, h rfl]
  · rw [if_neg hname, if_neg (Ne.symm hname), Entries.insert_comm (Ne.symm hname)]

/-- A name that is taken as it is, before or after its state is changed. -/
theorem changeAt_flag (f : Query → Query) (name first : String) (taken : Bool) (ts : Entries Take) :
    changeAt f name (mergeTakes ts [(first, .flag taken)]) =
      mergeTakes (changeAt f name ts) [(first, .flag taken)] := by
  simp only [changeAt, mergeTakes, Entries.get?_insert]
  by_cases hname : name = first
  · subst hname
    rw [if_pos rfl, if_pos rfl, Entries.insert_insert, Entries.insert_insert, Option.getD_some]
    -- a state that stands at the name stays, a flag leaves as little as none
    rcases hentry : ts.get? name with - | (flag | state) <;> rfl
  · rw [if_neg hname, if_neg (Ne.symm hname), Entries.insert_comm (Ne.symm hname)]

theorem changeAt_mergeTakes {incoming : Entries Take} (flags : ∀ e ∈ incoming, ∃ taken, e.2 = .flag taken)
    (f : Query → Query) (name : String) (ts : Entries Take) :
    changeAt f name (mergeTakes ts incoming) = mergeTakes (changeAt f name ts) incoming := by
  induction incoming generalizing ts with
  | nil => rfl
  | cons e incoming ih =>
    rw [List.forall_mem_cons] at flags
    obtain ⟨first, t⟩ := e
    obtain ⟨taken, rfl⟩ : ∃ taken, t = .flag taken := flags.1
    have hsplit (ts : Entries Take) : mergeTakes ts ((first, .flag taken) :: incoming) =
        mergeTakes (mergeTakes ts [(first, .flag taken)]) incoming := rfl
    rw [hsplit, hsplit, ih flags.2, changeAt_flag]

/-- Names in their order, put one after the other where there are none. -/
theorem mergeTakes_nil {incoming : Entries Take} (sorted : incoming.Sorted) :
    mergeTakes [] incoming = incoming := by
  rw [mergeTakes_eq, Entries.mergeBy_nil (fun _ => rfl) sorted]

theorem take_apply_unshaped {p : Query} (hp : p.Unshaped) {incoming : Entries Take} (htake : p.take = some incoming)
    (q : Query) : (q.apply p true).take = some (mergeTakes (q.take.getD []) incoming) := by
  rw [take_apply, htake]
  cases q.take with
  | none => exact congrArg some (mergeTakes_nil (hp _ htake).1).symm
  | some existing => rfl

/-- A patch of a state, before or after an edit below it. -/
theorem modify_apply {p : Query} (hp : p.Unshaped) (f : Query → Query) (name : String) (rest : List String)
    (q : Query) : modify f (name :: rest) (q.apply p true) = (modify f (name :: rest) q).apply p true := by
  have htake : (modify f (name :: rest) (q.apply p true)).take =
      ((modify f (name :: rest) q).apply p true).take := by
    cases hptake : p.take with
    | none => rw [modify_cons, modify_cons, take_apply, take_apply, hptake]
    | some incoming =>
      rw [take_apply_unshaped hp hptake, modify_cons, take_apply_unshaped hp hptake, modify_cons]
      exact congrArg some (changeAt_mergeTakes (hp _ hptake).2 _ _ _)
  rw [apply_eq (modify f (name :: rest) q), ← htake, apply_eq q p]
  rfl

/-! Edits -/

/-- Edits commute if their patches do where they meet. -/
theorem edit_comm {e f : Edit} (he : e.2.Unshaped) (hf : f.2.Unshaped) (h : e.1 = f.1 → e.2.Apart f.2)
    (q : Query) : (q.edit e).edit f = (q.edit f).edit e := by
  obtain ⟨names, p⟩ := e
  obtain ⟨names', r⟩ := f
  dsimp only at he hf h
  induction names generalizing names' q with
  | nil =>
    cases names' with
    | nil => exact apply_comm (h rfl) q
    | cons name names' => exact modify_apply he _ name names' q
  | cons name names ih =>
    cases names' with
    | nil => exact (modify_apply hf _ name names q).symm
    | cons name' names' =>
      refine congrArg (fun ts => { q with take := some ts }) (changeAt_comm (fun hname s => ?_) _)
      exact ih s names' fun hnames => h (by rw [hname, hnames])

/-- Edits that commute pairwise make one state in any order. -/
theorem edited_perm {edits edits' : List Edit} (h : edits.Perm edits') (unshaped : ∀ e ∈ edits, e.2.Unshaped)
    (apart : ∀ e ∈ edits, ∀ f ∈ edits, e ≠ f → e.1 = f.1 → e.2.Apart f.2) (q : Query) :
    q.edited edits = q.edited edits' := by
  refine h.foldl_eq' (fun e he f hf r => ?_) q
  by_cases heq : e = f
  · rw [heq]
  · exact edit_comm (unshaped e he) (unshaped f hf) (apart e he f hf heq) r

end Query
end RecordGraph
