import RecordGraph.Text.Pieces
import RecordGraph.Text.Quoted
import RecordGraph.Value.Printer

/-!
What can be wrong with the text of a value, and where: it may not be the text of any value, or the
value may not have the shape that it is read in. Places are counted in lines and in the bytes of a
line.
-/
namespace RecordGraph.Value

/-- What stands where something else is expected. -/
inductive Found where
  | null
  | bool (b : Bool)
  | number (n : Number)
  | text (s : String)
  | list
  | map
deriving DecidableEq

namespace Found

def ofValue : Value → Found
  | .null => null
  | .bool b => bool b
  | .num n => number n
  | .str s => text s
  | .arr _ => list
  | .obj _ => map

def describe : Found → String
  | null => "null"
  | bool true => "boolean `true`"
  | bool false => "boolean `false`"
  | number (.int i h) => "integer `" ++ (Number.int i h).text ++ "`"
  | number (.double d) => "floating point `" ++ (Number.double d).text ++ "`"
  | text s => "string " ++ Text.quoted s
  | list => "sequence"
  | map => "map"

end Found

/-- How a value differs from the shape that it is read in. -/
inductive Mismatch where
  | kind (found : Found) (expected : String)
  | severalKeys
  | tooShort (length : Nat) (expected : String)
  | unknownName (name : String) (known : List String)
  | missingField (name : String)
  | repeatedField (name : String)
  | noAlternative (name : String)
deriving DecidableEq

def Mismatch.message : Mismatch → String
  | kind found expected => "invalid type: " ++ found.describe ++ ", expected " ++ expected
  | severalKeys => "invalid value: map, expected map with a single key"
  | tooShort length expected =>
    "invalid length " ++ toString length ++ ", expected " ++ expected
  | unknownName name known =>
    "unknown variant `" ++ name ++ "`, expected one of " ++
      Text.join ", " (known.map fun k => "`" ++ k ++ "`")
  | missingField name => "missing field `" ++ name ++ "`"
  | repeatedField name => "duplicate field `" ++ name ++ "`"
  | noAlternative name => "data did not match any variant of untagged enum " ++ name

/-- What is wrong with the text of a value. -/
inductive Cause where
  | endOfList
  | endOfMap
  | endOfString
  | endOfValue
  | colon
  | listSeparator
  | mapSeparator
  | word
  | value
  | escape
  | number
  | range
  | illFormed
  | control
  | key
  | loneHalf
  | missingHalf
  | trailingComma
  | trailing
  | depth
  | mismatch (m : Mismatch)
deriving DecidableEq

def Cause.message : Cause → String
  | endOfList => "EOF while parsing a list"
  | endOfMap => "EOF while parsing an object"
  | endOfString => "EOF while parsing a string"
  | endOfValue => "EOF while parsing a value"
  | colon => "expected `:`"
  | listSeparator => "expected `,` or `]`"
  | mapSeparator => "expected `,` or `\x7d`"
  | word => "expected ident"
  | value => "expected value"
  | escape => "invalid escape"
  | number => "invalid number"
  | range => "number out of range"
  | illFormed => "invalid unicode code point"
  | control => "control character (\\u0000-\\u001F) found while parsing a string"
  | key => "key must be a string"
  | loneHalf => "lone leading surrogate in hex escape"
  | missingHalf => "unexpected end of hex escape"
  | trailingComma => "trailing comma"
  | trailing => "trailing characters"
  | depth => "recursion limit exceeded"
  | mismatch m => m.message

/-- A cause and its place. -/
structure Fault where
  cause : Cause
  line : Nat
  column : Nat
deriving DecidableEq

def Fault.message (f : Fault) : String :=
  f.cause.message ++ " at line " ++ toString f.line ++ " column " ++ toString f.column

/-- Why reading stopped, and what of the text was left then. -/
structure Stop where
  cause : Cause
  rest : List Char

/-- A stop as a fault of the text that was read. -/
def Stop.locate (text : List Char) (s : Stop) : Fault :=
  let passed := text.take (text.length - s.rest.length)
  ⟨s.cause, (passed.filter (· == '\n')).length + 1, (passed.reverse.takeWhile (· != '\n')).length⟩

end RecordGraph.Value
