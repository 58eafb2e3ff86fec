import RecordGraph.Query.Action
import RecordGraph.Text.Form
import RecordGraph.Text.Pieces

/-!
What a request addresses. Two paths are answered by the gateway itself; every other path below the
root is the path of a query, and what stands after the question mark are its parameters. An address
may be absolute; its scheme and authority do not matter then.
-/
namespace RecordGraph

/-- The methods of requests that the gateway tells apart. -/
inductive Method where
  | get
  | head
  | options
  | other
deriving DecidableEq

def Method.ofName (name : String) : Method :=
  if name = "GET" then .get
  else if name = "HEAD" then .head
  else if name = "OPTIONS" then .options
  else .other

/-- The address of a request, still percent-encoded. -/
structure Address where
  path : String
  params : Option String
deriving DecidableEq

namespace Address

def isSchemeChar (c : Char) : Bool := c.isAlphanum || c == '+' || c == '-' || c == '.' || c == '~'

/-- What follows the scheme of an absolute address. -/
def behindScheme? (cs : List Char) : Option (List Char) :=
  match cs.dropWhile isSchemeChar with
  | ':' :: '/' :: '/' :: r => some r
  | _ => none

def endsAuthority (c : Char) : Bool := c == '/' || c == '?' || c == '#'

/-- A path with its parameters; a fragment is not part of the address. -/
def ofPath (text : String) : Address :=
  let (path, params) := Text.splitFirst '?' (Text.splitFirst '#' text).1
  ⟨path, params⟩

/-- The path of an absolute address is the root where it is empty. An address that is neither absolute
nor a path names an authority, which has no path, or is the asterisk. -/
def ofUri (uri : String) : Address :=
  match uri.toList with
  | '/' :: _ => ofPath uri
  | ['*'] => ofPath uri
  | cs =>
    match behindScheme? cs with
    | none => ⟨"", none⟩
    | some cs =>
      let address := ofPath (String.ofList (cs.dropWhile fun c => !endsAuthority c))
      if address.path.isEmpty then { address with path := "/" } else address

end Address

inductive Route where
  | health
  | ping
  | query (path : String)
  | nowhere
deriving DecidableEq

namespace Route

/-- The path of a query goes without its first slash. -/
def ofPath (path : String) : Route :=
  if path = "/health" then health
  else if path = "/v1/ping" then ping
  else match Text.afterChar? '/' path with
    | some path => query path
    | none => nowhere

/-- Reading is open on every route; only queries have options. -/
def allows : Route → Method → Bool
  | _, .get => true
  | _, .head => true
  | query _, .options => true
  | _, _ => false

end Route

namespace Address

/-- The path of a query with its percent signs resolved, if that is text. -/
def decodePath (path : String) : Option String :=
  Text.Utf8.decode (Text.Form.percentDecode (Text.Utf8.encode path))

/-- The path and the parameters of a query as one text; no parameters differ from empty ones. -/
def querystring (path : String) (params : Option String) : String :=
  match params with
  | some params => "/" ++ path ++ "?" ++ params
  | none => "/" ++ path

end Address
end RecordGraph
