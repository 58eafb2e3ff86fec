import RecordGraph.Gateway.Address
import RecordGraph.Gateway.Reply
import RecordGraph.Query.Querystring.Reader
import RecordGraph.Run.Execute

/-!
The gateway: requests are turned into queries, requesters into the claims they can prove, and
responses into replies. A request that is malformed as such is refused before its query is read, and
its query before its token.
-/
namespace RecordGraph

/-- A request; `authorization` is the value of its authorization header. -/
structure Request where
  method : Method := .get
  uri : String
  authorization : Option String := none

/-- An engine and the secret that bearer tokens are signed with, if any are accepted. -/
structure Gateway where
  engine : Engine
  secret : Option String := none

namespace Gateway

/-- The context of a request: the claims of its token as the user, nothing without a token. -/
def context (g : Gateway) (now : Nat) (token : Option String) : Except Unauthorized Value :=
  match token, g.secret with
  | none, _ => .ok (.obj [])
  | some _, none => .error .notAccepted
  | some token, some secret =>
    match Bearer.verify secret now token with
    | .error fault => .error (.token fault)
    | .ok claims => .ok (.node "user" claims)

/-- A request for options is one for the action unless its query names another. -/
def withMethod (method : Method) (q : Query) : Query :=
  if method = .options then { q with action := q.action.or (some .options) } else q

/-- Read a query, identify the requester, and execute. -/
def respond (g : Gateway) (now : Nat) (method : Method) (text : String) (token : Option String) :
    Except Refusal Response :=
  match Query.decode .server text with
  | .error error => .error (.query error)
  | .ok q =>
    match g.context now token with
    | .error cause => .error (.unauthorized cause)
    | .ok request =>
      match (g.engine.execute (withMethod method q) request).outcome with
      | .error error => .error (.query error)
      | .ok response => .ok response

/-- The token of a request, none without a header, refused where the header is not a bearer one. -/
def requestToken (r : Request) : Option (Option String) :=
  match r.authorization with
  | none => some none
  | some header => (Bearer.token? header).map some

def answerQuery (g : Gateway) (now : Nat) (r : Request) (path : String) (params : Option String) :
    Reply :=
  match Address.decodePath path, requestToken r with
  | some path, some token =>
    match g.respond now r.method (Address.querystring path params) token with
    | .error refusal => .refuse refusal
    | .ok response => .ok response.toValue
  | _, _ => ⟨400, none⟩

def health (g : Gateway) : Value :=
  .object [("status", .str "ok"), ("spaces", .nat g.engine.server.spaces.length),
    ("pageSize", .uint g.engine.settings.pageSize)]

/-- The reply to a request at the time `now`, in seconds. -/
def answer (g : Gateway) (now : Nat) (r : Request) : Reply :=
  let address := Address.ofUri r.uri
  let route := Route.ofPath address.path
  if route = .nowhere then ⟨404, none⟩
  else if !route.allows r.method then ⟨405, none⟩
  else
    let reply := match route with
      | .health => .ok g.health
      | .ping => .ok (.node "status" (.str "ok"))
      | .query path => g.answerQuery now r path address.params
      | .nowhere => ⟨404, none⟩
    if r.method = .head then reply.withoutBody else reply

end Gateway
end RecordGraph
