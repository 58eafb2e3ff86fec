import RecordGraph.Query.Blob
import RecordGraph.Query.Clause
import RecordGraph.Query.Feature
import RecordGraph.Text.Blank
import RecordGraph.Text.Form

/-!
Reading querystrings: a path that addresses the target, and parameters that shape the result. An
encoded state in place of the path, or as the parameter `query`, replaces everything else.
-/
namespace RecordGraph

/-- What the path of a querystring is relative to. -/
inductive Root where
  | server
  | space (name : String)
  | resource (space name : String)
deriving DecidableEq

namespace Root

/-- The query that addresses the root itself. -/
def query : Root → Query
  | server => {}
  | space name => { space := some name }
  | resource owner name => { space := some owner, resource := some name }

/-- Address what the segments of a path name below the root. -/
def address (root : Root) (q : Query) (segments : List String) : Option Query :=
  match root, segments with
  | _, [] => some q
  | server, [s] => some { q with space := some s }
  | server, [s, r] => some { q with space := some s, resource := some r }
  | server, [s, r, id] => some { q with space := some s, resource := some r, record := some id }
  | server, [s, r, id, f] =>
    some { q with space := some s, resource := some r, record := some id, field := some f }
  | space _, [r] => some { q with resource := some r }
  | space _, [r, id] => some { q with resource := some r, record := some id }
  | space _, [r, id, f] => some { q with resource := some r, record := some id, field := some f }
  | resource _ _, [f] => some { q with field := some f }
  | resource _ _, [id, f] => some { q with record := some id, field := some f }
  | _, _ => none

end Root

/-- A parameter with all its values, in order. -/
structure Param where
  key : String
  values : List String

namespace Param

/-- Add a value to the parameter of a key, or a new parameter at the end. -/
def add (key value : String) : List Param → List Param
  | [] => [⟨key, [value]⟩]
  | p :: ps => if p.key = key then ⟨key, p.values ++ [value]⟩ :: ps else p :: add key value ps

/-- Pairs grouped by key, in order of first appearance; pairs with a blank side are dropped. -/
def group (pairs : List (String × String)) : List Param :=
  pairs.foldl (fun ps (key, value) => if key.isEmpty || value.isEmpty then ps else add key value ps) []

def noSubkeys (p : Param) (subkeys : List String) : Except QueryError Unit :=
  if subkeys.isEmpty then .ok () else .error (.param p.key .unexpectedSubkey)

def single (p : Param) : Except QueryError String :=
  match p.values with
  | [value] => .ok value
  | _ => .error (.param p.key .notSingle)

/-- One map inside the other, along the subkeys. -/
def nestAlong (value : Value) : List String → Value
  | [] => value
  | subkey :: rest => .node subkey (nestAlong value rest)

/-- The map that holds the values under the subkeys. -/
def nest (p : Param) (subkeys : List String) : Except QueryError (Entries Value) :=
  match subkeys with
  | [] => .error (.param p.key .missingSubkey)
  | first :: rest =>
    if subkeys.any String.isEmpty then .error (.param p.key .emptySubkey)
    else .ok [(first, nestAlong (Scalar.readAll true p.values) rest)]

/-- The page that one parameter describes. -/
def page (p : Param) (subkeys : List String) : Except QueryError Page := do
  let value ← p.single
  match subkeys with
  | [] => return { after := some value }
  | ["after"] => return { after := some value }
  | ["size"] =>
    match (Text.uint64? value).filter fun n => 0 < n with
    | some n => return { size := some n }
    | none => throw (.param p.key .notPositive)
  | _ => throw (.param p.key .unknownPageOption)

/-- A key taken apart: its feature, the level it applies at, and its subkeys. -/
structure Parts where
  feature : Feature
  level : Level
  subkeys : List String

def parts (p : Param) : Except QueryError Parts :=
  match Feature.ofKey? p.key with
  | none => .error (.param p.key .unknownFeature)
  | some feature =>
    let segments := Text.pieces feature.separator p.key
    let level := (Text.splitFirst '.' (segments.headD "")).2
    .ok ⟨feature, Level.ofText? level, segments.drop 1⟩

/-- Apply one parameter, all but `where`, to a state. -/
def apply (q : Query) (p : Param) : Except QueryError Query := do
  let ⟨feature, level, subkeys⟩ ← p.parts
  match feature with
  | .filter => return q
  | .take =>
    p.noSubkeys subkeys
    return q.update { take := some (Names.take p.values) } level true
  | .sort =>
    p.noSubkeys subkeys
    return q.update { sort := some (Names.sort p.values) } level false
  | .page => return q.update { page := some (← p.page subkeys) } level true
  | .group => return q.update { group := some (← p.nest subkeys) } level true
  | .inspect => return q.update { inspect := some (← p.nest subkeys) } Level.root true
  | .action =>
    p.noSubkeys subkeys
    let name ← p.single
    match Action.ofName? name with
    | some action => return { q with action := some action }
    | none => throw (.query (.action name))
  | .space =>
    p.noSubkeys subkeys
    return { q with space := some (← p.single) }
  | .resource =>
    p.noSubkeys subkeys
    return { q with resource := some (← p.single) }
  | .record =>
    p.noSubkeys subkeys
    return { q with record := some (← p.single) }
  | .field =>
    p.noSubkeys subkeys
    return { q with field := some (← p.single) }
  | .query => throw (.param p.key .unknownFeature)

/-- The `where` parameter that `p` is, with its level. -/
def whereParam? (p : Param) : Option (Level × WhereParam) :=
  match p.parts with
  | .ok ⟨.filter, level, subkeys⟩ => some (level, ⟨p.key, subkeys, p.values⟩)
  | _ => none

/-- Add a `where` parameter to those of its level. -/
def addWhere (level : Level) (p : WhereParam) :
    List (Level × List WhereParam) → List (Level × List WhereParam)
  | [] => [(level, [p])]
  | (l, ps) :: rest =>
    if l = level then (l, ps ++ [p]) :: rest else (l, ps) :: addWhere level p rest

/-- The `where` parameters by level, in order of first appearance. -/
def wheres (params : List Param) : List (Level × List WhereParam) :=
  (params.filterMap whereParam?).foldl (fun acc (level, p) => addWhere level p acc) []

/-- Apply parameters to a state: `where` last, so that it sees all parameters of its level. -/
def applyAll (q : Query) (params : List Param) : Except QueryError Query := do
  let q ← params.foldlM apply q
  (wheres params).foldlM (fun q (level, ps) => do
    return q.update { filter := some (← assembleWhere ps) } level false) q

end Param

namespace Query

/-- The state that a path and parameters describe. -/
def ofPathAndParams (root : Root) (path params : String) : Except QueryError Query := do
  let segments := (Text.pieces '/' path).filter fun s => !s.isEmpty
  let some q := root.address root.query segments | throw (.query (.path path))
  let params := Param.group (Text.Form.decode params)
  match params.find? fun p => p.key == Feature.query.name with
  | some p =>
    match p.values.head?.bind decodeState with
    | some state => return state
    | none => throw (.query .encodedState)
  | none => Param.applyAll q params

/-- Read a querystring relative to a root. -/
def decode (root : Root) (querystring : String) : Except QueryError Query :=
  let text := Text.trim querystring
  match decodeState (Text.trimChar '/' text) with
  | some state => .ok state
  | none =>
    match Text.pieces '?' text with
    | [path] => ofPathAndParams root path ""
    | [path, params] => ofPathAndParams root path params
    | _ => .error (.query (.querystring text))

/-- Read a querystring relative to the server. -/
def parse (querystring : String) : Except QueryError Query := decode .server querystring

end Query
end RecordGraph
