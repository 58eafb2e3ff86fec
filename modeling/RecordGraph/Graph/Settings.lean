import RecordGraph.Value.Fields

/-!
Settings that hold for every query: the default page size, whether pages report a total, and the
permissions of fields that declare none for an action.
-/
namespace RecordGraph

structure Settings where
  pageSize : UInt64 := 50
  pageTotal : Bool := true
  fieldPermissions : Entries Value := []

namespace Settings

def ofValue? (v : Value) : Option Settings := do
  let fs ← Fields.of? ["page_size", "page_total", "field_permissions"] v
  return {
    pageSize := ← fs.orDefault "page_size" 50 Value.uint?
    pageTotal := ← fs.orDefault "page_total" true Value.bool?
    fieldPermissions := ← fs.orDefault "field_permissions" [] Value.obj? }

def toValue (s : Settings) : Value :=
  .object [("page_size", .uint s.pageSize), ("page_total", .bool s.pageTotal),
    ("field_permissions", .obj s.fieldPermissions)]

end Settings
end RecordGraph
