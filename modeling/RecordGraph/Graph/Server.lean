import RecordGraph.Error
import RecordGraph.Graph.Config
import RecordGraph.Graph.Resource

/-!
The graph that queries run on, built from its declaration. The id field always exists and comes
first; the other fields keep the order of their names. What a field leaves open is taken from a
schema, where its resource is stored and the schema knows the field.
-/
namespace RecordGraph

structure Space where
  name : String
  resources : Entries Resource

structure Server where
  url : Option String := none
  spaces : Entries Space := []

/-- What a schema knows of a stored field. -/
structure Described where
  type : Value
  default : Option Value
  nullable : Bool
  unique : Bool
  indexed : Bool

/-- What is known of a path in a collection. -/
abbrev Schema := String → String → Option Described

namespace Field

/-- Build a field from its declaration. -/
def build (schema : Schema) (owner : String) (config : ResourceConfig) (name : String)
    (spec : FieldConfig) : Except SourceFault Field := do
  let source ← FieldSource.declared name spec.source
  let described := match spec.type, config.source, source.storagePath? with
    | none, some collection, some path => schema collection path
    | _, _, _ => none
  let isId := name == config.idName
  return {
    name := name
    owner := owner
    type := spec.type.getD (match described with
      | some d => d.type
      | none => .str "any")
    source := source
    isLazy := spec.isLazy
    can := spec.can
    depends := spec.depends
    inverse := spec.inverse
    default := spec.default.or (described.bind Described.default)
    unique := spec.unique.getD (match described with
      | some d => d.unique
      | none => isId)
    indexed := match described with
      | some d => d.indexed
      | none => isId
    nullable := spec.nullable.getD (match described with
      | some d => d.nullable
      | none => false)
    description := spec.description }

end Field

namespace ResourceConfig

/-- The declared fields, the id field first. -/
def ordered (config : ResourceConfig) : List (String × FieldConfig) :=
  (config.idName, (config.fields.lookup config.idName).getD {}) ::
    config.fields.filter fun (name, _) => name != config.idName

end ResourceConfig

namespace Resource

/-- Build a resource from its declaration. -/
def build (schema : Schema) (space name : String) (config : ResourceConfig) :
    Except QueryError Resource := do
  let id := space ++ "." ++ name
  let fields ← config.ordered.mapM fun (field, spec) =>
    match Field.build schema id config field spec with
    | .ok f => Except.ok f
    | .error fault => Except.error (QueryError.misconfigured (.fieldSource id fault))
  return {
    name := name, space := space, source := config.source, singleton := config.singleton,
    idName := config.idName, fields := fields, can := config.can, description := config.description }

end Resource

namespace Space

def build (schema : Schema) (name : String) (config : SpaceConfig) : Except QueryError Space := do
  let resources ← config.resources.mapM fun (resource, spec) =>
    (Resource.build schema name resource spec).map (resource, ·)
  return ⟨name, resources⟩

def resource? (s : Space) (name : String) : Option Resource := s.resources.get? name

def describe (s : Space) : Value :=
  .object [("name", .str s.name), ("resources", .obj (s.resources.mapValues Resource.describe))]

end Space

namespace Server

/-- Build the graph from its declaration. -/
def build (schema : Schema) (config : ServerConfig) : Except QueryError Server := do
  let spaces ← config.spaces.mapM fun (space, spec) => (Space.build schema space spec).map (space, ·)
  return ⟨config.url, spaces⟩

def space? (s : Server) (name : String) : Option Space := s.spaces.get? name

def resource? (s : Server) (space name : String) : Option Resource :=
  (s.space? space).bind fun found => found.resource? name

/-- The resource that a link names: within the space it is used in, or with a space of its own. -/
def resolveLink (s : Server) (fromSpace link : String) : Option Resource :=
  match Text.splitFirst '.' link with
  | (space, some name) => s.resource? space name
  | (name, none) => s.resource? fromSpace name

def describe (s : Server) : Value :=
  .object ([("spaces", .obj (s.spaces.mapValues fun space =>
    .node "resources" (.arr (space.resources.keys.map .str))))] ++
      (s.url.map fun url => ("url", .str url)).toList)

end Server
end RecordGraph
