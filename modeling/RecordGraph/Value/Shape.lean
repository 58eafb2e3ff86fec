import RecordGraph.Value.Reader
import RecordGraph.Value.Skip

/-!
Reading values in a given shape straight from their text. What has another shape is refused where it
stands; a scalar is read first, so that a message can name it.
-/
namespace RecordGraph.Value
variable {α σ : Type}

/-- Refuse the value that comes next, because it is not `expected`. -/
def refuse (expected : String) (cs : List Char) : Except Stop α :=
  let found (f : Found) (rest : List Char) : Except Stop α :=
    stopAt (.mismatch (.kind f expected)) rest
  match cs with
  | [] => stopOn .endOfValue []
  | 'n' :: r => (readWord ['u', 'l', 'l'] r).bind (found .null)
  | 't' :: r => (readWord ['r', 'u', 'e'] r).bind (found (.bool true))
  | 'f' :: r => (readWord ['a', 'l', 's', 'e'] r).bind (found (.bool false))
  | '"' :: r => (readText r).bind fun (s, r) => found (.text s) r
  | '[' :: r => found .list ('[' :: r)
  | '\x7b' :: r => found .map ('\x7b' :: r)
  | c :: r =>
    if c = '-' || c.isDigit then (Number.read (c :: r)).bind fun (n, r) => found (.number n) r
    else stopOn .value (c :: r)

/-- A value of a shape, or null. -/
def readOptional (read : List Char → Reading α) (cs : List Char) : Reading (Option α) :=
  match skipSpace cs with
  | 'n' :: r => (readWord ['u', 'l', 'l'] r).map (none, ·)
  | r => (read r).map fun (a, r) => (some a, r)

/-- A text. -/
def readTextValue (cs : List Char) : Reading String :=
  match skipSpace cs with
  | '"' :: r => readText r
  | r => refuse "a string" r

def readTextItems : Nat → Bool → List Char → Reading (List String)
  | 0, _, cs => stopAt .depth cs
  | fuel + 1, first, cs =>
    match nextItem first cs with
    | .error s => .error s
    | .ok (false, r) => .ok ([], r.tail)
    | .ok (true, r) =>
      (readTextValue r).bind fun (s, r) =>
        (readTextItems fuel false r).map fun (ss, r) => (s :: ss, r)

/-- A list of texts. -/
def readTexts (cs : List Char) : Reading (List String) :=
  match skipSpace cs with
  | '[' :: r => readTextItems (r.length + 1) true r
  | r => refuse "a sequence" r

/-- A text behind its quote that is one of the known names. -/
def readKnown (known : List String) (cs : List Char) : Reading String :=
  (readText cs).bind fun (s, r) =>
    if s ∈ known then .ok (s, r) else stopAt (.mismatch (.unknownName s known)) r

/-- A known name as the first key of a map. A map without keys has no value for it. -/
def readNameKey (known : List String) (cs : List Char) : Reading String :=
  match skipSpace cs with
  | [] => stopOn .endOfMap []
  | '"' :: r => readKnown known r
  | '\x7d' :: r => stopOn .value ('\x7d' :: r)
  | r => stopOn .key r

/-- One of the known names, as a text or as the one key of a map whose value is null. -/
def readName (known : List String) (cs : List Char) : Except Stop (String × List Char) :=
  match skipSpace cs with
  | [] => stopOn .endOfValue []
  | '"' :: r => readKnown known r
  | '\x7b' :: r => do
    let (name, r) ← readNameKey known r
    let r ← readColon r
    let r ← match skipSpace r with
      | 'n' :: r => readWord ['u', 'l', 'l'] r
      | r => refuse "unit" r
    match skipSpace r with
    | [] => stopAt .endOfMap []
    | '\x7d' :: r => .ok (name, r)
    | r => stopAt .value r
  | r => stopOn .value r

/-- What is left behind a container where its end comes next, else what comes next. -/
def behind (close : Char) (cs : List Char) : List Char :=
  match skipSpace cs with
  | [] => []
  | c :: r => if c = close then r else c :: r

/-- A field of a structure: how its value adds to what is known, and whether it must be given where the
structure is given as a map or as a list. -/
structure Member (σ : Type) where
  name : String
  read : σ → List Char → Reading σ
  neededInMap : Bool
  neededInList : Bool

/-- A structure, given as a map of its fields, in which other keys are passed over, or as the list of
all of them. -/
structure Shape (σ : Type) where
  name : String
  fields : List (Member σ)

namespace Shape

def readMap (shape : Shape σ) :
    Nat → Bool → List String → σ → List Char → Except Stop (σ × List Char)
  | 0, _, _, _, cs => stopAt .depth cs
  | fuel + 1, first, seen, known, cs => do
    let (more, r) ← nextKey first cs
    if !more then
      match shape.fields.find? fun f => f.neededInMap && f.name ∉ seen with
      | some f => stopAt (.mismatch (.missingField f.name)) r.tail
      | none => .ok (known, r.tail)
    else
      let (key, r) ← readText r
      match shape.fields.find? fun f => f.name == key with
      | none =>
        let r ← readColon r
        let r ← skip r
        readMap shape fuel false seen known r
      | some field =>
        if key ∈ seen then stopAt (.mismatch (.repeatedField key)) (behind '\x7d' r)
        else
          let r ← readColon r
          let (known, r) ← field.read known r
          readMap shape fuel false (key :: seen) known r

/-- Read the fields `fields` of a list in which `count` have been passed. -/
def readList (shape : Shape σ) :
    List (Member σ) → Nat → Bool → σ → List Char → Except Stop (σ × List Char)
  | [], _, _, known, cs =>
    match skipSpace cs with
    | [] => stopOn .endOfList []
    | ']' :: r => .ok (known, r)
    | ',' :: r =>
      match skipSpace r with
      | ']' :: r => stopOn .trailingComma (']' :: r)
      | r => stopOn .trailing r
    | r => stopOn .trailing r
  | field :: fields, count, first, known, cs => do
    let (more, r) ← nextItem first cs
    if more then
      let (known, r) ← field.read known r
      readList shape fields (count + 1) false known r
    else if field.neededInList then
      let expected := "struct " ++ shape.name ++ " with " ++ toString shape.fields.length ++ " elements"
      stopAt (.mismatch (.tooShort count expected)) r.tail
    else readList shape fields (count + 1) first known r

/-- Read a structure, starting from what is known before any field is. -/
def read (shape : Shape σ) (start : σ) (cs : List Char) : Reading σ :=
  match skipSpace cs with
  | '[' :: r => shape.readList shape.fields 0 true start r
  | '\x7b' :: r => shape.readMap (r.length + 1) true [] start r
  | r => refuse ("struct " ++ shape.name) r

end Shape
end RecordGraph.Value
