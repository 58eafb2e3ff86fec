import RecordGraph.Algebra.Grammar
import RecordGraph.Algebra.NormalForm
import RecordGraph.Value.Basic

/-!
Predicates from boolean texts: each symbol stands for the clause that a table gives it. A tree in
conjunctive or disjunctive form is kept as it is; any other is brought into conjunctive form first.
-/
namespace RecordGraph.Algebra

inductive CompileError where
  | parse (error : ParseError)
  | undefinedSymbols (names : List String)
deriving DecidableEq

def CompileError.message : CompileError → String
  | parse error => "invalid expression: " ++ error.message
  | undefinedSymbols names => "undefined symbols: " ++ Text.join ", " names

namespace Tree

mutual
/-- The predicate of a tree, node by node. -/
def predicate (table : Entries Value) : Tree → Value
  | .symbol name => (table.get? name).getD .null
  | .not t => .node "not" (predicate table t)
  | .and ts => .node "and" (.arr (predicates table ts))
  | .or ts => .node "or" (.arr (predicates table ts))

def predicates (table : Entries Value) : List Tree → List Value
  | [] => []
  | t :: ts => predicate table t :: predicates table ts
end

/-- The tree itself if it is in a normal form, else its conjunctive form. -/
def normal (t : Tree) : Tree := if t.isCnf || t.isDnf then t else t.toCnf

end Tree

/-- The predicate that `text` writes over the clauses in `table`. -/
def compile (text : String) (table : Entries Value) : Except CompileError Value :=
  match parse text with
  | .error e => .error (.parse e)
  | .ok tree =>
    match tree.symbols.filter fun name => !table.has name with
    | [] => .ok (tree.normal.predicate table)
    | undefined => .error (.undefinedSymbols undefined)

end RecordGraph.Algebra
