import RecordGraph.Expr.Literal
import RecordGraph.Query.Scalar

/-!
Predicates that the engine makes itself.
-/
namespace RecordGraph

/-- All of the predicates together; none for no predicates, a single one as it is. -/
def conjoin : List Value → Option Value
  | [] => none
  | [p] => some p
  | ps => some (.node "and" (.arr ps))

/-- The records whose id reads as the given text, or as the number it writes. -/
def idPredicate (key id : String) : Value :=
  let literal : Value := .str (Expr.quote id)
  match Text.number? id with
  | some n => .node "in" (.arr [.str key, .arr [.num n, literal]])
  | none => .node "=" (.arr [.str key, literal])

/-- The records whose key holds one of the ids. -/
def inPredicate (key : String) (ids : List Value) : Value :=
  .node "in" (.arr [.str key, Expr.makeLiteral (.arr ids)])

end RecordGraph
