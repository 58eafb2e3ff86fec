import RecordGraph.Graph.Server
import RecordGraph.Store.Memory

/-!
Graph files: the declaration of a graph together with the records it serves.
-/
namespace RecordGraph

structure GraphFile where
  config : ServerConfig
  records : Value

/-- Why a graph file cannot be served. -/
inductive GraphFault where
  | records (error : StoreError)
  | graph (error : QueryError)

def GraphFault.message : GraphFault → String
  | records error => "invalid records: " ++ error.message
  | graph error => "invalid resource graph: " ++ error.message

namespace GraphFile

/-- A graph file is a map with the fields of a declaration and `records` beside them. -/
def ofValue? : Value → Option GraphFile
  | .obj entries =>
    (ServerConfig.ofFields? fun name => entries.lookup name).map fun config =>
      ⟨config, (entries.lookup "records").getD .null⟩
  | _ => none

/-- The stored records; a file without records has none. -/
def store (file : GraphFile) : Except StoreError Store :=
  if file.records.isNull then .ok [] else Store.ofValue file.records

/-- The graph and its store, in which the types of fields are looked up. -/
def build (file : GraphFile) : Except GraphFault (Server × Store) :=
  match file.store with
  | .error error => .error (.records error)
  | .ok store =>
    match Server.build store.describe file.config with
    | .error error => .error (.graph error)
    | .ok server => .ok (server, store)

end GraphFile
end RecordGraph
