import RecordGraph.Error
import RecordGraph.Query.State

/-!
The state that governs a level of a query. With a field as target, the query's leveled features apply
to the records the field links to, one level down, and the root has none.
-/
namespace RecordGraph

/-- A state, or nothing but the identifiers where a relation is taken by a flag. -/
inductive Scope where
  | ids
  | state (q : Query)

namespace Scope

def state? : Scope → Option Query
  | ids => none
  | state q => some q

def take? (s : Scope) : Option (Entries Take) := s.state?.bind Query.take

def page? (s : Scope) : Option Page := s.state?.bind Query.page

def pageSize (s : Scope) (default : UInt64) : UInt64 := (s.page?.bind Page.size).getD default

end Scope

namespace Query

/-- What stands at a level; an invalid level is an error. -/
def locate (q : Query) (level : Level) : Except QueryError Located :=
  match q.at? level with
  | some located => .ok located
  | none => .error (.query (.level level))

/-- The scope of a level. -/
def scope (q : Query) (level : Level) : Except QueryError Scope :=
  if q.field.isNone then
    (q.locate level).map fun located => match located with
      | .flag _ => .ids
      | .state state => .state state
  else match level with
    | [] => .ok (.state q.rootFeatures)
    | _ :: below =>
      (q.locate below).map fun located => match located with
        | .flag _ => .ids
        | .state state => .state state.leveledFeatures

end Query
end RecordGraph
