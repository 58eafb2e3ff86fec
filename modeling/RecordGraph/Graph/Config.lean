import RecordGraph.Value.Fields

/-!
The declaration of a graph: a server of spaces, spaces of resources, resources of fields.
-/
namespace RecordGraph

/-- A field as declared; one that is only a text declares its source. -/
structure FieldConfig where
  type : Option Value := none
  source : Option Value := none
  isLazy : Bool := false
  can : Option (Entries Value) := none
  depends : Option Value := none
  inverse : Option String := none
  default : Option Value := none
  unique : Option Bool := none
  nullable : Option Bool := none
  description : Option String := none

structure ResourceConfig where
  source : Option String := none
  singleton : Bool := false
  idName : String := "id"
  fields : Entries FieldConfig := []
  can : Option (Entries Value) := none
  description : Option String := none

structure SpaceConfig where
  resources : Entries ResourceConfig := []

structure ServerConfig where
  url : Option String := none
  spaces : Entries SpaceConfig := []

namespace FieldConfig

def names : List String :=
  ["type", "source", "lazy", "can", "depends", "inverse", "default", "unique", "nullable",
    "description"]

def ofFields? (fs : Fields) : Option FieldConfig := do
  return {
    type := ← fs.optional "type" some
    source := ← fs.optional "source" some
    isLazy := ← fs.orDefault "lazy" false Value.bool?
    can := ← fs.optional "can" Value.obj?
    depends := ← fs.optional "depends" some
    inverse := ← fs.optional "inverse" Value.str?
    default := ← fs.optional "default" some
    unique := ← fs.optional "unique" Value.bool?
    nullable := ← fs.optional "nullable" Value.bool?
    description := ← fs.optional "description" Value.str? }

def ofValue? : Value → Option FieldConfig
  | .str s => some { source := some (.str s) }
  | v => (Fields.of? names v).bind ofFields?

end FieldConfig

namespace ResourceConfig

def names : List String := ["source", "singleton", "id", "fields", "can", "description"]

def ofFields? (fs : Fields) : Option ResourceConfig := do
  return {
    source := ← fs.optional "source" Value.str?
    singleton := ← fs.orDefault "singleton" false Value.bool?
    idName := ← fs.orDefault "id" "id" Value.str?
    fields := ← fs.orDefault "fields" [] (Value.entriesOf? FieldConfig.ofValue?)
    can := ← fs.optional "can" Value.obj?
    description := ← fs.optional "description" Value.str? }

def ofValue? (v : Value) : Option ResourceConfig := (Fields.of? names v).bind ofFields?

end ResourceConfig

def SpaceConfig.ofValue? (v : Value) : Option SpaceConfig := do
  let fs ← Fields.of? ["resources"] v
  return { resources := ← fs.orDefault "resources" [] (Value.entriesOf? ResourceConfig.ofValue?) }

namespace ServerConfig

def ofFields? (fs : Fields) : Option ServerConfig := do
  return {
    url := ← fs.optional "url" Value.str?
    spaces := ← fs.orDefault "spaces" [] (Value.entriesOf? SpaceConfig.ofValue?) }

def ofValue? (v : Value) : Option ServerConfig := (Fields.of? ["url", "spaces"] v).bind ofFields?

end ServerConfig
end RecordGraph
