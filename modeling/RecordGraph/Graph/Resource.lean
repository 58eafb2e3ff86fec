import RecordGraph.Graph.FieldSource
import RecordGraph.Graph.FieldType

/-!
Resources and their fields. A resource is a collection of records, or a single record; its fields say
what is rendered of a record and from where.
-/
namespace RecordGraph

structure Field where
  name : String
  /-- The id of the resource that owns the field. -/
  owner : String
  type : Value
  source : FieldSource
  /-- Left out unless it is asked for by name or by a star. -/
  isLazy : Bool
  can : Option (Entries Value)
  /-- An expression that has to hold for the field to exist. -/
  depends : Option Value
  inverse : Option String
  default : Option Value
  unique : Bool
  indexed : Bool
  nullable : Bool
  description : Option String

namespace Field

def link? (f : Field) : Option String := FieldType.link? f.type

def isList (f : Field) : Bool := FieldType.isList f.type

def isNullable (f : Field) : Bool := f.nullable || FieldType.isNullable f.type

def describe (f : Field) : Value :=
  let given : List (String × Option Value) :=
    [("can", f.can.map .obj), ("depends", f.depends), ("inverse", f.inverse.map .str),
      ("default", f.default), ("description", f.description.map .str)]
  .object ([("name", .str f.name), ("type", f.type), ("source", f.source.toValue),
    ("lazy", .bool f.isLazy), ("unique", .bool f.unique), ("indexed", .bool f.indexed),
    ("nullable", .bool f.isNullable)] ++
      given.filterMap fun (key, value) => value.map (key, ·))

end Field

structure Resource where
  name : String
  space : String
  /-- The stored collection; a resource without one has computed fields only. -/
  source : Option String
  singleton : Bool
  idName : String
  fields : List Field
  can : Option (Entries Value)
  description : Option String

namespace Resource

def id (r : Resource) : String := r.space ++ "." ++ r.name

def field? (r : Resource) (name : String) : Option Field := r.fields.find? fun f => f.name == name

def idField? (r : Resource) : Option Field := r.field? r.idName

/-- The storage key of the id of a record. -/
def idKey (r : Resource) : String := (r.idField?.bind fun f => f.source.storagePath?).getD r.idName

def describe (r : Resource) : Value :=
  let given : List (String × Option Value) :=
    [("source", r.source.map .str), ("can", r.can.map .obj),
      ("description", r.description.map .str)]
  .object ([("id", .str r.id), ("name", .str r.name), ("space", .str r.space),
    ("singleton", .bool r.singleton), ("id_field", .str r.idName),
    ("fields", .object (r.fields.map fun f => (f.name, f.describe)))] ++
      given.filterMap fun (key, value) => value.map (key, ·))

end Resource
end RecordGraph
