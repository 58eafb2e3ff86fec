import RecordGraph.Query.Action
import RecordGraph.Query.Level
import RecordGraph.Value.Basic

/-!
Query states: what to address and how to shape the result. `space`, `resource`, `record`, `field`,
`action` and `inspect` belong to the root; `take`, `where`, `sort`, `page` and `group` apply at the
root and, through the nested states of `take`, at every level below it.
-/
namespace RecordGraph

/-- How many records to return, and the cursor to continue from. -/
structure Page where
  size : Option UInt64 := none
  after : Option String := none
deriving DecidableEq

mutual
/-- What to do with a name: leave it out, take it, or take it shaped by a state of its own. -/
inductive Take where
  | flag (taken : Bool)
  | nested (state : Query)

structure Query where
  space : Option String := none
  resource : Option String := none
  record : Option String := none
  field : Option String := none
  action : Option Action := none
  inspect : Option (Entries Value) := none
  take : Option (List (String × Take)) := none
  filter : Option Value := none
  sort : Option (List String) := none
  page : Option Page := none
  group : Option (Entries Value) := none
end

instance : Inhabited Query := ⟨{}⟩

namespace Take

/-- All but a flag that excludes. -/
def isTaken : Take → Bool
  | .flag taken => taken
  | .nested _ => true

/-- The nested state; a flag turns into an empty one. -/
def stateOrEmpty : Take → Query
  | .nested state => state
  | .flag _ => {}

end Take

/-! Equality of states, with values compared by kind. -/

def sameFilter : Option Value → Option Value → Bool
  | some v, some w => v.same w
  | none, none => true
  | _, _ => false

def sameMap : Option (Entries Value) → Option (Entries Value) → Bool
  | some es, some fs => Value.sameEntries es fs
  | none, none => true
  | _, _ => false

mutual
def Take.same : Take → Take → Bool
  | .flag a, .flag b => a == b
  | .nested q, .nested r => q.same r
  | _, _ => false

def Query.same : Query → Query → Bool
  | ⟨space, resource, record, field, action, inspect, take, filter, sort, page, group⟩,
    ⟨space', resource', record', field', action', inspect', take', filter', sort', page', group'⟩ =>
    space = space' && resource = resource' && record = record' && field = field' &&
      action = action' && sameMap inspect inspect' && sameTake take take' &&
      sameFilter filter filter' && sort = sort' && page = page' && sameMap group group'

def sameTake : Option (List (String × Take)) → Option (List (String × Take)) → Bool
  | some ts, some us => sameTakes ts us
  | none, none => true
  | _, _ => false

def sameTakes : List (String × Take) → List (String × Take) → Bool
  | [], [] => true
  | (k, t) :: ts, (l, u) :: us => k == l && t.same u && sameTakes ts us
  | _, _ => false
end

instance : BEq Query := ⟨Query.same⟩

/-! Merging. A map is never replaced by a boolean, nor a nested state by a flag. -/

mutual
/-- What stands at a key that held `current` once the value is merged in. -/
def Value.onto (current : Value) : Value → Value
  | .obj inner =>
    match current with
    | .obj existing => .obj (mergeEntries existing inner)
    | _ => .obj inner
  | .bool b =>
    match current with
    | .obj existing => .obj existing
    | _ => .bool b
  | v => v

def mergeEntries (existing : Entries Value) : List (String × Value) → Entries Value
  | [] => existing
  | (key, incoming) :: rest =>
    mergeEntries (existing.insert key (Value.onto ((existing.get? key).getD .null) incoming)) rest
end

/-- Put a given map in place of an existing one, or merge it in. -/
def mergeMap (merge : Bool) (existing incoming : Option (Entries Value)) : Option (Entries Value) :=
  match incoming, existing with
  | none, _ => existing
  | some new, some old => some (if merge then mergeEntries old new else new)
  | some new, none => some new

def mergePage (merge : Bool) (existing incoming : Option Page) : Option Page :=
  match incoming, existing with
  | none, _ => existing
  | some new, some old =>
    some (if merge then ⟨new.size.or old.size, new.after.or old.after⟩ else new)
  | some new, none => some new

mutual
/-- What stands at a name that held `current` once the entry is merged in. -/
def Take.onto (current : Take) : Take → Take
  | .nested patch =>
    match current with
    | .nested state => .nested (state.apply patch true)
    | .flag _ => .nested patch
  | .flag taken =>
    match current with
    | .nested state => .nested state
    | .flag _ => .flag taken

/-- The state with every feature of `patch` put in place; with `merge`, maps and pages are combined
key by key. -/
def Query.apply (q : Query) (patch : Query) (merge : Bool) : Query :=
  match patch with
  | ⟨space, resource, record, field, action, inspect, take, filter, sort, page, group⟩ =>
    { space := space.or q.space
      resource := resource.or q.resource
      record := record.or q.record
      field := field.or q.field
      action := action.or q.action
      inspect := mergeMap merge q.inspect inspect
      take := match take with
        | none => q.take
        | some incoming =>
          match q.take with
          | some existing => some (if merge then mergeTakes existing incoming else incoming)
          | none => some incoming
      filter := filter.or q.filter
      sort := sort.or q.sort
      page := mergePage merge q.page page
      group := mergeMap merge q.group group }

def mergeTakes (existing : Entries Take) : List (String × Take) → Entries Take
  | [] => existing
  | (name, incoming) :: rest =>
    let entry := match existing.get? name with
      | some current => Take.onto current incoming
      | none => incoming
    mergeTakes (existing.insert name entry) rest
end

/-! Levels -/

/-- What a level leads to: a state, or the flag that stands in its place. -/
inductive Located where
  | flag (taken : Bool)
  | state (q : Query)

namespace Query

/-- The entry that `take` has for a name. -/
def entry? (q : Query) (name : String) : Option Take := (q.take.getD []).lookup name

/-- Follow relation names downward; a flag ends the way. -/
def follow : List String → Query → Option Located
  | [], q => some (.state q)
  | name :: rest, q =>
    match q.entry? name with
    | none => none
    | some (.nested state) => follow rest state
    | some (.flag taken) => if rest.isEmpty then some (.flag taken) else none

/-- What stands at a level, none if the level is invalid. -/
def at? (q : Query) (level : Level) : Option Located := follow level.names q

/-- The state at a level; a flag or an invalid level has none. -/
def stateAt? (q : Query) (level : Level) : Option Query :=
  match q.at? level with
  | some (.state state) => some state
  | _ => none

/-- Change the state that relation names lead to, making states on the way where there are none. -/
def modify (f : Query → Query) : List String → Query → Query
  | [], q => f q
  | name :: rest, q =>
    let inner := ((q.entry? name).getD (.flag true)).stateOrEmpty
    { q with take := some (Entries.insert name (.nested (modify f rest inner)) (q.take.getD [])) }

/-- Apply a patch at a level. -/
def update (q : Query) (patch : Query) (level : Level) (merge : Bool) : Query :=
  modify (fun state => state.apply patch merge) level.names q

def rootFeatures (q : Query) : Query :=
  { space := q.space, resource := q.resource, record := q.record, field := q.field,
    action := q.action, inspect := q.inspect }

def leveledFeatures (q : Query) : Query :=
  { take := q.take, filter := q.filter, sort := q.sort, page := q.page, group := q.group }

/-- The query for the space or resource that a level names, with the root features of `q`. -/
def subquery? (q : Query) (level : Level) : Option Query :=
  (q.at? level).map fun located =>
    let leveled := match located with
      | .state state => state
      | .flag _ => {}
    let last := level.getLast?.getD ""
    let space := if q.resource.isNone && q.space.isNone then some last else q.space
    let resource := if q.resource.isNone && q.space.isSome then some last else q.resource
    { leveled with
      space := space, resource := resource, record := q.record, field := q.field,
      action := q.action, inspect := q.inspect }

end Query
end RecordGraph
