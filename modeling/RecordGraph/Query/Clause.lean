import RecordGraph.Error
import RecordGraph.Query.Scalar

/-!
The `where` parameters of one level and the predicate they make together. A clause compares a field
with a value; an algebra over the tags of the clauses may say how they combine, else all must hold.
-/
namespace RecordGraph

/-- A parameter: its key as written, the segments after the level, and its values. -/
structure WhereParam where
  key : String
  segments : List String
  values : List String

namespace WhereParam

/-- The methods that a clause may use. -/
def isComparison (op : String) : Bool :=
  Expr.isMethod op &&
    !(["and", "or", "not", "get", "literal", "object", "join", "concat"].contains op)

def reservedTags : List String := ["and", "or", "not"]

/-- What one parameter says: an algebra, or a clause under a tag. -/
inductive Reading where
  | algebra (text : String)
  | clause (tag : String) (predicate : Value)

def clause (p : WhereParam) (field op tag : String) : Except QueryError Reading :=
  if isComparison op then
    .ok (.clause tag (.node op (.arr [.str field, Scalar.readAll true p.values])))
  else .error (.param p.key (.unknownOperator op))

/-- Read the parameter at a position; an untagged clause is tagged with it. -/
def read (p : WhereParam) (index : Nat) : Except QueryError Reading :=
  match p.segments with
  | [] =>
    match p.values with
    | [text] => .ok (.algebra text)
    | _ => .error (.param p.key .notSingleAlgebra)
  | [field] => p.clause field "=" index.repr
  | [field, op] => p.clause field op index.repr
  | [field, op, tag] =>
    if reservedTags.contains tag then .error (.param p.key (.reservedTag tag))
    else p.clause field op tag
  | _ => .error (.param p.key .tooManySegments)

end WhereParam

/-- The algebra and the tagged clauses found so far, the clauses in their order. -/
structure WhereClauses where
  algebra : Option String := none
  clauses : List (String × Value) := []

namespace WhereClauses

def add (found : WhereClauses) (p : WhereParam) (index : Nat) : Except QueryError WhereClauses := do
  if p.segments.isEmpty && found.algebra.isSome then throw (.param p.key .severalAlgebras)
  match ← p.read index with
  | .algebra text => return { found with algebra := some text }
  | .clause tag predicate =>
    if (found.clauses.lookup tag).isSome then throw (.param p.key (.duplicateTag tag))
    return { found with clauses := found.clauses ++ [(tag, predicate)] }

def collect : List WhereParam → Nat → WhereClauses → Except QueryError WhereClauses
  | [], _, found => .ok found
  | p :: ps, index, found => do collect ps (index + 1) (← found.add p index)

/-- All clauses under one operator; a single one stands alone. -/
def combine (op : String) : List (String × Value) → Except QueryError Value
  | [] => .error (.query (.noClauses op))
  | [(_, predicate)] => .ok predicate
  | clauses => .ok (.node op (.arr (clauses.map Prod.snd)))

def predicate (found : WhereClauses) : Except QueryError Value :=
  match found.algebra with
  | none => combine "and" found.clauses
  | some "and" => combine "and" found.clauses
  | some "or" => combine "or" found.clauses
  | some text =>
    match Algebra.compile text (Entries.ofList found.clauses) with
    | .ok predicate => .ok predicate
    | .error e => .error (.expression (.compile e))

end WhereClauses

/-- The predicate that the parameters of one level make. -/
def assembleWhere (params : List WhereParam) : Except QueryError Value := do
  (← WhereClauses.collect params 0 {}).predicate

end RecordGraph
