import RecordGraph.Query.State

/-!
The node that a query targets: its deepest target feature.
-/
namespace RecordGraph

inductive Endpoint where
  | server
  | space
  | resource
  | record
  | field
deriving DecidableEq

def Endpoint.name : Endpoint → String
  | server => "server"
  | space => "space"
  | resource => "resource"
  | record => "record"
  | field => "field"

def Query.endpoint (q : Query) : Endpoint :=
  if q.field.isSome then .field
  else if q.record.isSome then .record
  else if q.resource.isSome then .resource
  else if q.space.isSome then .space
  else .server

end RecordGraph
