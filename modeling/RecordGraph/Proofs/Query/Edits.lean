import RecordGraph.Proofs.Entries
import RecordGraph.Proofs.Query.Blob
import RecordGraph.Proofs.Query.Local

/-!
States edited at their levels. What a sequence of edits makes of a state is told feature by feature:
its own features come from the edits at the root, and what stands at a name from the edits below the
name, so edits under different names may stand in any order.
-/
namespace RecordGraph

/-- A patch and the names that lead to where it is applied. -/
abbrev Edit := List String × Query

namespace Edit

/-- The patches that are applied to the state itself. -/
def here (edits : List Edit) : List Query :=
  edits.filterMap fun e => if e.1.isEmpty then some e.2 else none

/-- The edits that lead through a name, as edits of the state there. -/
def below (name : String) (edits : List Edit) : List Edit :=
  edits.filterMap fun e => match e.1 with
    | [] => none
    | first :: rest => if first = name then some (rest, e.2) else none

@[simp] theorem here_append (edits more : List Edit) : here (edits ++ more) = here edits ++ here more :=
  List.filterMap_append

@[simp] theorem below_append (name : String) (edits more : List Edit) :
    below name (edits ++ more) = below name edits ++ below name more :=
  List.filterMap_append

end Edit

namespace Query

def edit (q : Query) (e : Edit) : Query := modify (fun state => state.apply e.2 true) e.1 q

/-- The state after all edits. -/
def edited (q : Query) (edits : List Edit) : Query := edits.foldl edit q

variable {α : Type} {q : Query} {edits : List Edit}

/-- A feature that no edit below changes is what the patches of the state itself make of it. -/
theorem edited_feature (feature : Query → α) (patch : α → Query → α)
    (here : ∀ e ∈ edits, ∀ q, feature (q.apply e.2 true) = patch (feature q) e.2)
    (below : ∀ e ∈ edits, e.1 ≠ [] → ∀ q, feature (q.edit e) = feature q) (q : Query) :
    feature (q.edited edits) = (Edit.here edits).foldl patch (feature q) := by
  induction edits generalizing q with
  | nil => rfl
  | cons e edits ih =>
    rw [List.forall_mem_cons] at here below
    rw [edited, List.foldl_cons, ← edited, ih here.2 below.2]
    obtain ⟨names, p⟩ := e
    cases names with
    | nil => rw [edit, modify, here.1]; rfl
    | cons name names => rw [below.1 (List.cons_ne_nil _ _)]; rfl

/-! What stands at a name -/

theorem entry?_edit_below (q : Query) (p : Query) (name first : String) (rest : List String) :
    Query.entry? (q.edit (first :: rest, p)) name =
      if name = first then
        some (.nested ((((q.entry? first).getD (.flag true)).stateOrEmpty).edit (rest, p)))
      else q.entry? name :=
  entry?_modify _ first rest q name

/-- The names that a state takes are in order, and there are some if any are given. -/
def Tidy (q : Query) : Prop := ∀ ts, q.take = some ts → ts ≠ [] ∧ Entries.Sorted ts

/-- What stands at a name after what a patch has there. -/
def mergeEntry (current incoming : Option Take) : Option Take :=
  match incoming with
  | none => current
  | some t => some (match current with
    | some c => c.onto t
    | none => t)

/-- What comes to stand at a name that an entry of a patch is merged into. -/
def putTake (current : Option Take) (t : Take) : Take :=
  match current with
  | some c => c.onto t
  | none => t

theorem mergeTakes_eq (existing : Entries Take) (incoming : List (String × Take)) :
    mergeTakes existing incoming = existing.mergeBy putTake incoming := by
  induction incoming generalizing existing with
  | nil => rfl
  | cons e incoming ih => exact ih _

theorem sorted_mergeTakes {existing incoming : Entries Take} (h : existing.Sorted) :
    (mergeTakes existing incoming).Sorted := by
  rw [mergeTakes_eq]
  exact h.mergeBy

theorem mergeTakes_ne_nil {existing : Entries Take} (h : existing ≠ []) (incoming : Entries Take) :
    mergeTakes existing incoming ≠ [] := by
  induction incoming generalizing existing with
  | nil => exact h
  | cons e incoming ih => rw [mergeTakes]; exact ih (Entries.insert_ne_nil _ _ _)

theorem get?_mergeTakes {existing incoming : Entries Take} (nodup : incoming.keys.Nodup) (name : String) :
    (mergeTakes existing incoming).get? name =
      mergeEntry (existing.get? name) (incoming.get? name) := by
  rw [mergeTakes_eq, Entries.get?_mergeBy nodup]
  cases incoming.get? name <;> rfl

/-- A patch without features of the root leaves these as they are. -/
theorem rootFeatures_apply {p : Query} (h : p.rootFeatures = {}) (q : Query) :
    (q.apply p true).rootFeatures = q.rootFeatures := by
  obtain ⟨space, resource, record, field, action, inspect, take, filter, sort, page, group⟩ := p
  cases h
  cases take <;> rfl

theorem take_apply (q p : Query) : (q.apply p true).take =
    match p.take with
    | none => q.take
    | some incoming => match q.take with
      | some existing => some (mergeTakes existing incoming)
      | none => some incoming := by
  obtain ⟨space, resource, record, field, action, inspect, take, filter, sort, page, group⟩ := p
  cases take with
  | none => rfl
  | some incoming => cases hq : q.take <;> simp [apply, hq]

theorem Tidy.apply {q p : Query} (hq : q.Tidy) (hp : p.Tidy) : (q.apply p true).Tidy := by
  intro ts hts
  rw [take_apply] at hts
  cases hptake : p.take with
  | none =>
    rw [hptake] at hts
    exact hq ts hts
  | some incoming =>
    cases hqtake : q.take with
    | none =>
      rw [hptake, hqtake] at hts
      cases hts
      exact hp _ hptake
    | some existing =>
      rw [hptake, hqtake] at hts
      cases hts
      exact ⟨mergeTakes_ne_nil (hq _ hqtake).1 _, sorted_mergeTakes (hq _ hqtake).2⟩

theorem entry?_apply_of_sorted {p : Query} (hp : ∀ ts, p.take = some ts → Entries.Sorted ts) (q : Query)
    (name : String) : Query.entry? (q.apply p true) name = mergeEntry (q.entry? name) (p.entry? name) := by
  rw [ entry?, entry?, entry?, take_apply]
  cases hptake : p.take with
  | none => rfl
  | some incoming =>
    cases hqtake : q.take with
    | none =>
      change incoming.lookup name = mergeEntry none (incoming.lookup name)
      cases incoming.lookup name <;> rfl
    | some existing => exact get?_mergeTakes (hp _ hptake).nodup name

theorem entry?_apply {p : Query} (hp : p.Tidy) (q : Query) (name : String) :
    Query.entry? (q.apply p true) name = mergeEntry (q.entry? name) (p.entry? name) :=
  entry?_apply_of_sorted (fun ts hts => (hp ts hts).2) q name

theorem Tidy.edit {q : Query} (hq : q.Tidy) {e : Edit} (he : e.2.Tidy) : (q.edit e).Tidy := by
  obtain ⟨names, p⟩ := e
  cases names with
  | nil => exact hq.apply he
  | cons name names =>
    rintro ts ⟨⟩
    have hsorted : Entries.Sorted (q.take.getD []) := by
      cases hts : q.take with
      | none => exact List.Pairwise.nil
      | some ts => exact (hq ts hts).2
    exact ⟨Entries.insert_ne_nil _ _ _, hsorted.insert⟩

theorem Tidy.edited {q : Query} (hq : q.Tidy) {edits : List Edit} (h : ∀ e ∈ edits, e.2.Tidy) :
    (q.edited edits).Tidy := by
  induction edits generalizing q with
  | nil => exact hq
  | cons e edits ih =>
    rw [List.forall_mem_cons] at h
    exact ih (hq.edit h.1) h.2

/-- What stands at a name comes from the edits below it, if no patch of the state itself has the name. -/
theorem entry?_edited {edits : List Edit} (tidy : ∀ e ∈ edits, e.2.Tidy) {name : String}
    (leaves : ∀ p ∈ Edit.here edits, p.entry? name = none) (q : Query) :
    Query.entry? (q.edited edits) name =
      if Edit.below name edits = [] then q.entry? name
      else some (.nested ((((q.entry? name).getD (.flag true)).stateOrEmpty).edited
        (Edit.below name edits))) := by
  induction edits generalizing q with
  | nil => rfl
  | cons e edits ih =>
    rw [List.forall_mem_cons] at tidy
    obtain ⟨names, p⟩ := e
    cases names with
    | nil =>
      have hbelow : Edit.below name (([], p) :: edits) = Edit.below name edits := rfl
      have hhere : Edit.here (([], p) :: edits) = p :: Edit.here edits := rfl
      rw [hhere, List.forall_mem_cons] at leaves
      have hentry : Query.entry? (q.edit ([], p)) name = q.entry? name := by
        rw [edit, modify, entry?_apply tidy.1, leaves.1]
        rfl
      rw [edited, List.foldl_cons, ← edited, ih tidy.2 leaves.2, hentry, hbelow]
    | cons first rest =>
      have hhere : Edit.here ((first :: rest, p) :: edits) = Edit.here edits := rfl
      rw [hhere] at leaves
      rw [edited, List.foldl_cons, ← edited, ih tidy.2 leaves, entry?_edit_below]
      by_cases hname : name = first
      · subst hname
        have hbelow : Edit.below name ((name :: rest, p) :: edits) =
            (rest, p) :: Edit.below name edits := by simp [Edit.below]
        rw [if_pos rfl, hbelow, if_neg (List.cons_ne_nil _ _)]
        by_cases hnil : Edit.below name edits = []
        · rw [if_pos hnil, hnil]
          rfl
        · rw [if_neg hnil]
          rfl
      · have hbelow : Edit.below name ((first :: rest, p) :: edits) = Edit.below name edits := by
          simp [Edit.below, Ne.symm hname]
        rw [if_neg hname, hbelow]

/-- What stands at a name that no edit leads through comes from the patches of the state itself. -/
theorem entry?_edited_here {edits : List Edit} (tidy : ∀ e ∈ edits, e.2.Tidy) {name : String}
    (none : Edit.below name edits = []) (q : Query) : Query.entry? (q.edited edits) name =
      (Edit.here edits).foldl (fun current p => mergeEntry current (p.entry? name)) (q.entry? name) := by
  refine edited_feature (fun q => q.entry? name) _ (fun e he q => entry?_apply (tidy e he) q name)
    (fun e he hbelow q => ?_) q
  obtain ⟨names, p⟩ := e
  obtain ⟨first, rest, rfl⟩ := List.exists_cons_of_ne_nil hbelow
  rw [ entry?_edit_below, if_neg]
  rintro rfl
  have hmem : (rest, p) ∈ Edit.below name edits := by
    rw [Edit.below, List.mem_filterMap]
    exact ⟨_, he, by simp⟩
  rw [none] at hmem
  cases hmem

end Query
end RecordGraph
