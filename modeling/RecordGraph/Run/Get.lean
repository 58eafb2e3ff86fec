import RecordGraph.Query.Endpoint
import RecordGraph.Run.Render
import RecordGraph.Run.Response

/-!
Reading the graph. A server or a space answers with its children: a link for each, or the answer of a
query of its own for those that are taken with a nested state. A resource, a record or a field is
read from the store under the permissions of its resource.
-/
namespace RecordGraph

namespace Engine

def findSpace (e : Engine) (name : String) : Except QueryError Space :=
  match e.server.space? name with
  | some space => .ok space
  | none => .error (.notFound (.space name))

/-- The resource that a query targets. -/
def findResource (e : Engine) (q : Query) : Except QueryError Resource :=
  match q.resource, q.space with
  | none, _ => .error (.query .noResource)
  | some name, none => .error (.query (.noSpace name))
  | some name, some owner =>
    (e.findSpace owner).bind fun space =>
      match space.resource? name with
      | some r => .ok r
      | none => .error (.notFound (.resource owner name))

/-! Resources -/

/-- Everything about a read that is settled before the store is asked. -/
structure Plan where
  window : Window
  many : Bool
  fetch : Fetch

/-- The predicate of a cursor that continues by values; only lists are continued. -/
def keysetStorage (e : Engine) (r : Resource) (window : Window) (many : Bool) :
    Except QueryError (List Value) :=
  match many, window.keysetPredicate with
  | true, some predicate => (e.server.toStorage r predicate).map fun p => [p]
  | _, _ => .ok []

/-- The predicates of a read: permission, filter, cursor and record id, in this order. -/
def rootPredicates (e : Engine) (ctx : Context) (r : Resource) (access : Access)
    (filter : Option Value) (window : Window) (many : Bool) : Except QueryError (List Value) := do
  let prepared ← e.prepareAll r ctx access filter
  let keyset ← e.keysetStorage r window many
  let id := (ctx.query.record.map (idPredicate r.idKey)).toList
  return prepared ++ keyset ++ id

/-- The plan of a read of a resource with a source. -/
def plan (e : Engine) (ctx : Context) (r : Resource) (endpoint : Endpoint) (access : Access)
    (source : String) : Except QueryError Plan := do
  let scope ← ctx.query.scope Level.root
  let window ← Window.ofPage scope.page? e.settings.pageSize
  let many := endpoint = .resource && !r.singleton
  let predicates ← e.rootPredicates ctx r access (scope.state?.bind Query.filter) window many
  let sort ← e.prepareSort r (scope.state?.bind Query.sort)
  return {
    window := window
    many := many
    fetch := {
      source := source
      predicate := conjoin predicates
      sort := sort
      offset := if many then window.offset else 0
      limit := some (if many then window.limit else 1)
      count := many && e.settings.pageTotal } }

/-- The sort values of the last record of a page, for a cursor that continues by values. -/
def keysetValues (e : Engine) (r : Resource) (window : Window) (last : Option Record) :
    Except QueryError (Option (Entries Value)) :=
  match window.cursor, last with
  | some (.keyset after), some record =>
    (after.keys.mapM fun name =>
      (e.server.storagePath r name).map fun path => (name, (record.read path).getD .null)).map some
  | _, _ => .ok none

/-- The key of a list in the continuations. -/
def pageKey : Option String → String
  | some path => "data." ++ path
  | none => "data"

/-- The records of a page and its continuation, from one record more than the page holds. -/
def turnPage (e : Engine) (r : Resource) (window : Window) (path : Option String)
    (fetched : Fetched) : Except QueryError (List Record × Entries PageMeta) :=
  if fetched.records.length ≤ window.size.toNat then .ok (fetched.records, [])
  else
    let records := fetched.records.take window.size.toNat
    (e.keysetValues r window records.getLast?).map fun last =>
      (records, [(pageKey path, ⟨(window.next last).encode, fetched.total⟩)])

/-- The one record that a record or field query, or a singleton, is about. -/
def theRecord (q : Query) (r : Resource) (endpoint : Endpoint) (fetched : Fetched) :
    Except QueryError Record :=
  match fetched.records with
  | record :: _ => .ok record
  | [] =>
    if endpoint = .resource then .error (.misconfigured (.noSingletonRecord r.id))
    else .error (.notFound (.record r.id (q.record.getD "")))

/-- Read a resource, a record or a field. -/
def getResource (e : Engine) (ctx : Context) (endpoint : Endpoint) (path : Option String) :
    Run Response := do
  let r ← e.findResource ctx.query
  let action := "get." ++ endpoint.name
  let access ← can r action ctx none
  if access.isDenied then Run.fail (.forbidden action r.id)
  let fields ← takeFields r "get" Level.root ctx e.settings
  match r.source with
  | none =>
    if !r.singleton then Run.fail (.misconfigured (.noSource r.id))
    let computed := fields.filter fun f => f.source.isComputed
    let rows ← e.renderRoot ctx r computed [none]
    return { data := rows.headD .null }
  | some source =>
    let plan ← e.plan ctx r endpoint access source
    let fetched ← e.store.runFetch plan.fetch
    if plan.many then
      let (records, page) ← e.turnPage r plan.window path fetched
      let rows ← e.renderRoot ctx r fields (records.map some)
      return { data := .arr rows, page := page }
    else
      let record ← theRecord ctx.query r endpoint fetched
      let rows ← e.renderRoot ctx r fields [some record]
      return { data := rows.headD .null }

/-! Children of servers and spaces -/

/-- The entry that decides over a child, with the name it stands under; none leaves the child out. -/
def childEntry (take : Option (Entries Take)) (name : String) : Option (String × Take) :=
  match take with
  | none => some (name, .flag true)
  | some entries =>
    match entries.get? name with
    | some entry => some (name, entry)
    | none => (entries.get? "*").map fun entry => ("*", entry)

/-- The query of a child, from the nested state it is taken with. -/
def childQuery (q : Query) (key name : String) : Except QueryError Query :=
  match q.subquery? (Level.ofText key) with
  | none => .error (.query (.level (Level.ofText key)))
  | some sub =>
    .ok (if q.space.isNone then { sub with space := some name } else { sub with resource := some name })

/-- The answer of one child, none if it is left out. -/
def getChild (get : Context → Option String → Run Response) (ctx : Context) (path : Option String)
    (name : String) : Run (Option Response) :=
  match childEntry ctx.query.take name with
  | none => return none
  | some (_, .flag false) => return none
  | some (_, .flag true) => return some { data := .str ("./" ++ name ++ "/") }
  | some (key, .nested _) => do
    let sub ← childQuery ctx.query key name
    let below := match path with
      | some path => path ++ "." ++ name
      | none => name
    let response ← get { ctx with query := sub } (some below)
    return some response

/-- The answers of the children, each under its name. -/
def getChildren (get : Context → Option String → Run Response) (ctx : Context)
    (path : Option String) (names : List String) : Run Response := do
  let answers ← Run.each (fun name => do
    return (← getChild get ctx path name).map fun response => (name, response)) names
  let found := answers.filterMap id
  return {
    data := .obj (found.map fun (name, response) => (name, response.data))
    page := found.foldl (fun pages (_, response) => Response.mergePages pages response.page) [] }

/-- Read the resources of a space. -/
def getSpace (e : Engine) (ctx : Context) (name : String) (path : Option String) : Run Response := do
  let space ← e.findSpace name
  getChildren (fun sub path => e.getResource sub .resource path) ctx path space.resources.keys

/-- Read the spaces of the server. -/
def getServer (e : Engine) (ctx : Context) : Run Response :=
  getChildren (fun sub path => e.getSpace sub (sub.query.space.getD "") path) ctx none
    e.server.spaces.keys

/-- Read what a query targets. -/
def get (e : Engine) (ctx : Context) : Run Response :=
  match ctx.query.endpoint with
  | .server => e.getServer ctx
  | .space => e.getSpace ctx (ctx.query.space.getD "") none
  | endpoint => e.getResource ctx endpoint none

end Engine
end RecordGraph
