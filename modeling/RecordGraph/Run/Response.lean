import RecordGraph.Value.Basic

/-!
Responses: the data of a query and, for lists that go on, where to continue.
-/
namespace RecordGraph

/-- The cursor of the next page, and how many records there are in all. -/
structure PageMeta where
  after : String
  total : Option Nat

def PageMeta.toValue (p : PageMeta) : Value :=
  .obj (("after", .str p.after) :: (p.total.map fun n => ("total", .nat n)).toList)

/-- `page` holds the continuations under `data`, or `data` and the path of a nested list. -/
structure Response where
  data : Value
  page : Entries PageMeta := []

namespace Response

/-- The data, and the continuations if there are any. -/
def toValue (r : Response) : Value :=
  let continuations : List (String × Value) :=
    if r.page.isEmpty then []
    else [("meta", .node "page" (.obj (r.page.mapValues PageMeta.toValue)))]
  .obj (("data", r.data) :: continuations)

/-- The continuations of both, those of the second winning. -/
def mergePages (first second : Entries PageMeta) : Entries PageMeta :=
  second.foldl (fun pages (key, page) => pages.insert key page) first

end Response
end RecordGraph
