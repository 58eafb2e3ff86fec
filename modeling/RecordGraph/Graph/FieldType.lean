import RecordGraph.Text.Pieces
import RecordGraph.Value.Basic

/-!
Types of fields. A type is a name such as `string` or `@users`, a map with a `type`, or a union: a
list of types, or alternatives under `anyOf` and `oneOf`. A name with an at sign links to a resource.
-/
namespace RecordGraph.FieldType

mutual
/-- The name of a type that has one. -/
def name? : Value → Option String
  | .str s => some s
  | .obj es => nameIn? es
  | _ => none

def nameIn? : List (String × Value) → Option String
  | [] => none
  | (key, v) :: es => if key = "type" then name? v else nameIn? es
end

mutual
/-- The resource that a type links to. -/
def link? : Value → Option String
  | .str s => Text.afterChar? '@' s
  | .arr xs => firstLink? xs
  | .obj es =>
    match nameIn? es with
    | some name =>
      match Text.afterChar? '@' name with
      | some target => some target
      | none =>
        if name = "array" then linkAt? "items" es
        else if name = "object" then linkAtMap? "additionalProperties" es
        else none
    | none =>
      ((linkUnder? "type" es).or (linkUnder? "anyOf" es)).or (linkUnder? "oneOf" es)
  | _ => none

def firstLink? : List Value → Option String
  | [] => none
  | x :: xs => (link? x).or (firstLink? xs)

/-- The link of the type at a key. -/
def linkAt? (key : String) : List (String × Value) → Option String
  | [] => none
  | (k, v) :: es => if k = key then link? v else linkAt? key es

/-- The link of the type at a key, if that is a map. -/
def linkAtMap? (key : String) : List (String × Value) → Option String
  | [] => none
  | (k, v) :: es =>
    if k = key then match v with
      | .obj fs => link? (.obj fs)
      | _ => none
    else linkAtMap? key es

/-- The first link among the alternatives at a key. -/
def linkUnder? (key : String) : List (String × Value) → Option String
  | [] => none
  | (k, v) :: es =>
    if k = key then match v with
      | .arr xs => firstLink? xs
      | _ => none
    else linkUnder? key es
end

mutual
/-- Whether the name of a type, or of some alternative, satisfies `named`. -/
def admits (named : String → Bool) : Value → Bool
  | .str s => named s
  | .arr xs => admitsAny named xs
  | .obj es =>
    match nameIn? es with
    | some name => named name
    | none => admitsUnder named "type" es || admitsUnder named "anyOf" es || admitsUnder named "oneOf" es
  | _ => false

def admitsAny (named : String → Bool) : List Value → Bool
  | [] => false
  | x :: xs => admits named x || admitsAny named xs

def admitsUnder (named : String → Bool) (key : String) : List (String × Value) → Bool
  | [] => false
  | (k, v) :: es =>
    if k = key then match v with
      | .arr xs => admitsAny named xs
      | _ => false
    else admitsUnder named key es
end

/-- Arrays, also among alternatives. -/
def isList : Value → Bool := admits (· == "array")

/-- Null and any, also among alternatives. -/
def isNullable : Value → Bool := admits fun name => name == "null" || name == "any"

end RecordGraph.FieldType
