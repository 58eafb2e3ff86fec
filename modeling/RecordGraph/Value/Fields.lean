import RecordGraph.Value.Basic

/-!
Reading structured values field by field. A structured value is a map, whose other keys are ignored,
or the list of its fields in their order, shortened at the end.
-/
namespace RecordGraph

/-- What each field of a structured value was given as, if it was given. -/
abbrev Fields := String → Option Value

namespace Fields

/-- The fields named `names` of a structured value. -/
def of? (names : List String) : Value → Option Fields
  | .obj es => some fun name => es.lookup name
  | .arr xs =>
    if xs.length ≤ names.length then some fun name => (names.zip xs).lookup name else none
  | _ => none

/-- A field that may be left out or null. -/
def optional {α : Type} (fs : Fields) (name : String) (read : Value → Option α) :
    Option (Option α) :=
  match fs name with
  | none => some none
  | some .null => some none
  | some v => (read v).map some

/-- A field that has a default when it is left out. -/
def orDefault {α : Type} (fs : Fields) (name : String) (default : α) (read : Value → Option α) :
    Option α :=
  match fs name with
  | none => some default
  | some v => read v

end Fields

/-- The value of a key that is given exactly once. -/
def Value.only? (entries : List (String × Value)) (key : String) : Option Value :=
  match entries.filter fun (k, _) => k == key with
  | [(_, v)] => some v
  | _ => none

/-- A map whose values are all read the same way. -/
def Value.entriesOf? {α : Type} (read : Value → Option α) : Value → Option (Entries α)
  | .obj es => es.mapM fun (key, v) => (read v).map (key, ·)
  | _ => none

end RecordGraph
