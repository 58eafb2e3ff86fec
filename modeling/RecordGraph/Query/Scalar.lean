import RecordGraph.Text.Numeral
import RecordGraph.Value.Printer

/-!
Scalars in parameters. A text that writes a number is that number, the words `true`, `false` and
`null` are constants where they are asked for, and any other text is itself.
-/
namespace RecordGraph.Scalar

/-- The value a text stands for; `constants` tells whether the three words count. -/
def read (constants : Bool) (s : String) : Value :=
  let plain := match Text.number? s with
    | some n => .num n
    | none => .str s
  if constants then
    match s with
    | "true" => .bool true
    | "false" => .bool false
    | "null" => .null
    | _ => plain
  else plain

/-- The value of a list of texts; a single one is not put into a list. -/
def readAll (constants : Bool) : List String → Value
  | [s] => read constants s
  | many => .arr (many.map (read constants))

/-- The text of a scalar, quotes included where it has them. -/
def write? : Value → Option String
  | .str s => some s
  | .num n => some n.text
  | .bool true => some "true"
  | .bool false => some "false"
  | .null => some "null"
  | _ => none

end RecordGraph.Scalar
