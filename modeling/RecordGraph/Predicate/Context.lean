import RecordGraph.Query.Blob
import RecordGraph.Store.Memory

/-!
What rules, predicates and computed fields may refer to: the request, the query, and for computed
fields the record.
-/
namespace RecordGraph

structure Context where
  query : Query
  request : Value

namespace Context

/-- The query as references see it. -/
def queryValue (ctx : Context) : Value := ctx.query.toValue.canonical

/-- The request and the query. -/
def scope (ctx : Context) : Value := .obj [("query", ctx.queryValue), ("request", ctx.request)]

/-- The fields of a record, the request and the query. -/
def recordScope (ctx : Context) (r : Option Record) : Value :=
  .obj [("fields", .obj (r.getD [])), ("query", ctx.queryValue), ("request", ctx.request)]

end Context
end RecordGraph
