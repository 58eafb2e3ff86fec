import RecordGraph.Graph.Settings
import RecordGraph.Permission.Access
import RecordGraph.Predicate.Storage

/-!
What every query runs on: the graph, the stored records and the settings.
-/
namespace RecordGraph

structure Engine where
  server : Server
  store : Store
  settings : Settings

namespace Engine

/-- A predicate resolved against the request and brought to storage paths. -/
def preparePredicate (e : Engine) (r : Resource) (ctx : Context) (predicate : Value) :
    Except QueryError Value :=
  match resolve ctx.scope predicate with
  | .error error => .error (.ofEval error)
  | .ok resolved => e.server.toStorage r resolved

/-- The permission and the filter of a level, prepared, in this order. -/
def prepareAll (e : Engine) (r : Resource) (ctx : Context) (access : Access)
    (filter : Option Value) : Except QueryError (List Value) :=
  (access.predicate?.toList ++ filter.toList).mapM (e.preparePredicate r ctx)

/-- The sort keys of a level over storage paths. -/
def prepareSort (e : Engine) (r : Resource) (sort : Option (List String)) :
    Except QueryError (List SortKey) :=
  match sort with
  | some keys => e.server.sortKeys r keys
  | none => .ok []

end Engine
end RecordGraph
