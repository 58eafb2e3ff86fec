import RecordGraph.Expr.Compare
import RecordGraph.Expr.Literal
import RecordGraph.Value.Printer

/-!
The methods of the expression language, sorted by how they take their operands, and what each of
them computes once its operands are values.
-/
namespace RecordGraph.Expr

/-- What a method expects of its operands. -/
inductive Expected where
  | one
  | two
  | list
  | atLeastOne
  | object
  | path
  | joinable
deriving DecidableEq

def Expected.message : Expected → String
  | one => "expecting 1 argument"
  | two => "expecting 2 arguments"
  | list => "expecting a list of arguments"
  | atLeastOne => "expecting at least 1 argument"
  | object => "expecting an object"
  | path => "expecting a path"
  | joinable => "expecting a list, object or path"

inductive EvalError where
  | invalidOperator (name : String)
  | invalidArguments (method : String) (expected : Expected)
  | notCountable (method : String) (value : Value)

def EvalError.message : EvalError → String
  | invalidOperator name => "invalid expression operator: " ++ name
  | invalidArguments method expected =>
    "invalid arguments for " ++ method ++ ": " ++ expected.message
  | notCountable method value =>
    "type error: " ++ method ++ " expects a string, list or object, got " ++ value.text

inductive Unary where
  | not
  | isNull
  | notNull
  | count
  | holds
  | fails
deriving DecidableEq

inductive Binary where
  | less
  | greater
  | atMost
  | atLeast
  | member
  | notMember
  | contains
  | notContains
  | containsFolded
deriving DecidableEq

inductive Variadic where
  | equal
  | notEqual
  | least
  | greatest
deriving DecidableEq

inductive Method where
  | get
  | all
  | any
  | join
  | literal
  | object
  | unary (op : Unary)
  | binary (op : Binary)
  | variadic (op : Variadic)
deriving DecidableEq

/-- The method a name stands for. -/
def Method.ofName? : String → Option Method
  | "get" => some .get
  | "and" => some .all
  | "or" => some .any
  | "not" => some (.unary .not)
  | "join" | "concat" => some .join
  | "literal" => some .literal
  | "object" => some .object
  | "=" | "is" | "eq" | "equal" | "equals" => some (.variadic .equal)
  | "!=" | "ne" | "neq" | "not.equal" => some (.variadic .notEqual)
  | "<" | "lt" | "less" => some (.binary .less)
  | ">" | "gt" | "greater" => some (.binary .greater)
  | "<=" | "lte" => some (.binary .atMost)
  | ">=" | "gte" => some (.binary .atLeast)
  | "in" => some (.binary .member)
  | "not.in" | "-in" => some (.binary .notMember)
  | "contains" => some (.binary .contains)
  | "not.contains" | "-contains" => some (.binary .notContains)
  | "icontains" => some (.binary .containsFolded)
  | "null" | "is.null" => some (.unary .isNull)
  | "not.null" | "-null" => some (.unary .notNull)
  | "count" | "length" => some (.unary .count)
  | "min" => some (.variadic .least)
  | "max" => some (.variadic .greatest)
  | "true" => some (.unary .holds)
  | "false" => some (.unary .fails)
  | _ => none

def isMethod (name : String) : Bool := (Method.ofName? name).isSome

/-- The size of a text, list or map; null has none. -/
def count (method : String) : Value → Except EvalError Value
  | .null => .ok (.nat 0)
  | .str s => .ok (.nat s.length)
  | .arr xs => .ok (.nat xs.length)
  | .obj es => .ok (.nat es.length)
  | v => .error (.notCountable method v)

def Unary.apply (op : Unary) (method : String) (v : Value) : Except EvalError Value :=
  match op with
  | not => .ok (.bool (!truthy v))
  | isNull => .ok (.bool v.isNull)
  | notNull => .ok (.bool (!v.isNull))
  | count => Expr.count method v
  | holds => .ok (.bool (truthy v))
  | fails => .ok (.bool (!truthy v))

def Binary.apply (op : Binary) (left right : Value) : Bool :=
  match op with
  | less => order left right = some .lt
  | greater => order left right = some .gt
  | atMost => (order left right).any fun o => o != .gt
  | atLeast => (order left right).any fun o => o != .lt
  | member => Expr.contains right left
  | notMember => !Expr.contains right left
  | contains => Expr.contains left right
  | notContains => !Expr.contains left right
  | containsFolded => Expr.containsFolded left right

/-- A single list operand stands for its items. -/
def candidates : List Value → List Value
  | [.arr xs] => xs
  | vs => vs

def Variadic.apply (op : Variadic) (values : List Value) : Value :=
  match op with
  | equal => .bool (allEqual values)
  | notEqual => .bool (!allEqual values)
  | least => extreme .lt (candidates values)
  | greatest => extreme .gt (candidates values)

/-- Texts as they are, other values in their written form. -/
def plainText : Value → String
  | .str s => s
  | v => v.text

/-- The texts of the values that count as true, joined. -/
def joinValues (separator : String) (values : List Value) : Value :=
  .str (Text.join separator ((values.filter truthy).map plainText))

/-- A list stands for its items, any other value for itself. -/
def spread : Value → List Value
  | .arr xs => xs
  | v => [v]

/-- The separator that a map of operands names. -/
def separatorOf (entries : Entries Value) : String :=
  match entries.get? "separator" with
  | some (.str s) => (unquoted? s).getD s
  | some v => v.text
  | none => " "

end RecordGraph.Expr
