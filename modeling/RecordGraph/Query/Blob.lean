import RecordGraph.Query.State
import RecordGraph.Text.Base64
import RecordGraph.Text.Utf8
import RecordGraph.Value.Printer
import RecordGraph.Value.Reader

/-!
Query states as values and as blobs, the base64 of their compact text. Absent features are left out;
a null reads as absent; unknown features are refused. A state, like a page, may also be given as the
list of its features in their order, shortened at the end.
-/
namespace RecordGraph

/-- A list of what is present, under its name. -/
def present (fields : List (String × Option Value)) : List (String × Value) :=
  fields.filterMap fun (name, value) => value.map (name, ·)

namespace Page

def toValue (p : Page) : Value :=
  .obj (present [("size", p.size.map .uint), ("after", p.after.map .str)])

/-- Set one feature of a page. -/
def setField (name : String) (v : Value) (p : Page) : Option Page :=
  match name, v with
  | "size", .null => some p
  | "size", v => v.uint?.map fun n => { p with size := some n }
  | "after", .null => some p
  | "after", v => v.str?.map fun s => { p with after := some s }
  | _, _ => none

def ofValue? : Value → Option Page
  | .obj es => es.foldlM (fun p (name, v) => p.setField name v) {}
  | .arr [] => some {}
  | .arr [size] => setField "size" size {}
  | .arr [size, after] => (setField "size" size {}).bind (setField "after" after)
  | _ => none

end Page

mutual
def Take.toValue : Take → Value
  | .flag taken => .bool taken
  | .nested state => state.toValue

/-- The present features in their order, which is not that of their names. -/
def Query.toValue : Query → Value
  | ⟨space, resource, record, field, action, inspect, take, filter, sort, page, group⟩ =>
    .obj (present [
      ("space", space.map .str), ("resource", resource.map .str), ("record", record.map .str),
      ("field", field.map .str), ("action", action.map fun a => .str a.name),
      ("inspect", inspect.map .obj),
      ("take", match take with
        | some ts => some (.obj (takesValue ts))
        | none => none),
      ("where", filter), ("sort", sort.map fun keys => .arr (keys.map .str)),
      ("page", page.map Page.toValue), ("group", group.map .obj)])

def takesValue : List (String × Take) → List (String × Value)
  | [] => []
  | (name, t) :: ts => (name, t.toValue) :: takesValue ts
end

namespace Query

/-- The features of a state in their order. -/
def features : List String :=
  ["space", "resource", "record", "field", "action", "inspect", "take", "where", "sort", "page", "group"]

/-- The action a value names, as a text or as the key of a null. -/
def actionOf? : Value → Option Action
  | .str s => Action.ofName? s
  | .obj [(s, .null)] => Action.ofName? s
  | _ => none

/-- Set one feature, other than `take`, to a value that is not null. -/
def setFeature (name : String) (v : Value) (q : Query) : Option Query :=
  match name with
  | "space" => v.str?.map fun s => { q with space := some s }
  | "resource" => v.str?.map fun s => { q with resource := some s }
  | "record" => v.str?.map fun s => { q with record := some s }
  | "field" => v.str?.map fun s => { q with field := some s }
  | "action" => (actionOf? v).map fun a => { q with action := some a }
  | "inspect" => v.obj?.map fun es => { q with inspect := some es }
  | "where" => some { q with filter := some v }
  | "sort" => (v.arr?.bind fun xs => xs.mapM Value.str?).map fun keys => { q with sort := some keys }
  | "page" => (Page.ofValue? v).map fun p => { q with page := some p }
  | "group" => v.obj?.map fun es => { q with group := some es }
  | _ => none

end Query

mutual
def Take.ofValue? : Value → Option Take
  | .bool taken => some (.flag taken)
  | .obj es => (Query.ofEntries? es).map .nested
  | .arr xs => (Query.ofItems? Query.features xs).map .nested
  | _ => none

def Query.ofEntries? : List (String × Value) → Option Query
  | [] => some {}
  | (name, v) :: es => (Query.ofEntries? es).bind fun q => Query.read? name v q

/-- The items of a list, taken as the features `names`. -/
def Query.ofItems? (names : List String) : List Value → Option Query
  | [] => some {}
  | v :: vs =>
    match names with
    | [] => none
    | name :: names => (Query.ofItems? names vs).bind fun q => Query.read? name v q

/-- Read one feature. -/
def Query.read? (name : String) (v : Value) (q : Query) : Option Query :=
  if name ∉ Query.features then none
  else match v with
    | .null => some q
    | .obj es =>
      if name = "take" then (takesOf? es).map fun ts => { q with take := some ts }
      else Query.setFeature name (.obj es) q
    | v => if name = "take" then none else Query.setFeature name v q

def takesOf? : List (String × Value) → Option (List (String × Take))
  | [] => some []
  | (name, v) :: es => (Take.ofValue? v).bind fun t => (takesOf? es).map ((name, t) :: ·)
end

namespace Query

/-- The state a value describes. -/
def ofValue? : Value → Option Query
  | .obj es => ofEntries? es
  | .arr xs => ofItems? features xs
  | _ => none

/-- The state as a blob. -/
def encodeState (q : Query) : String := Text.Base64.encode (Text.Utf8.encode q.toValue.text)

/-- The state that a blob holds; it has to be a map. -/
def decodeState (blob : String) : Option Query :=
  if blob.isEmpty then none
  else
    match (Text.Base64.decode blob).bind fun bytes => (Value.readBytes bytes).toOption with
    | some (.obj es) => ofEntries? es
    | _ => none

end Query
end RecordGraph
