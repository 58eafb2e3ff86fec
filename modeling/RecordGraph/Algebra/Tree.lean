import RecordGraph.Value.Entries
import RecordGraph.Text.Pieces

/-!
Boolean trees over named symbols. Conjunctions and disjunctions take any number of operands; the
constructors `conj` and `disj` splice operands of their own kind and leave a single operand alone.
-/
namespace RecordGraph.Algebra

inductive Tree where
  | symbol (name : String)
  | not (operand : Tree)
  | and (operands : List Tree)
  | or (operands : List Tree)

namespace Tree

/-- The operands a tree brings to a conjunction. -/
def conjuncts : Tree → List Tree
  | .and ts => ts
  | t => [t]

/-- The operands a tree brings to a disjunction. -/
def disjuncts : Tree → List Tree
  | .or ts => ts
  | t => [t]

/-- The one operand itself, else the operands under `build`. -/
def collapse (build : List Tree → Tree) : List Tree → Tree
  | [t] => t
  | ts => build ts

def conj (ts : List Tree) : Tree := collapse .and (ts.flatMap conjuncts)

def disj (ts : List Tree) : Tree := collapse .or (ts.flatMap disjuncts)

/-- A symbol or a negated symbol. -/
def isLiteral : Tree → Bool
  | .symbol _ => true
  | .not (.symbol _) => true
  | _ => false

def isOperator : Tree → Bool
  | .and _ => true
  | .or _ => true
  | _ => false

mutual
/-- The symbols from left to right, with repetitions. -/
def names : Tree → List String
  | .symbol name => [name]
  | .not t => names t
  | .and ts => namesAll ts
  | .or ts => namesAll ts

def namesAll : List Tree → List String
  | [] => []
  | t :: ts => names t ++ namesAll ts
end

/-- The symbols in order, each once. -/
def symbols (t : Tree) : List String := (Entries.ofList (t.names.map fun name => (name, ()))).keys

mutual
/-- The text of a tree; operands that are operators themselves stand in parentheses. -/
def text : Tree → String
  | .symbol name => name
  | .not t => "not " ++ operandText t
  | .and ts => Text.join " and " (operandTexts ts)
  | .or ts => Text.join " or " (operandTexts ts)

def operandText (t : Tree) : String := if t.isOperator then "(" ++ text t ++ ")" else text t

def operandTexts : List Tree → List String
  | [] => []
  | t :: ts => operandText t :: operandTexts ts
end

mutual
/-- The same tree built anew through `conj` and `disj`. -/
def rebuild : Tree → Tree
  | .symbol name => .symbol name
  | .not t => .not (rebuild t)
  | .and ts => conj (rebuildAll ts)
  | .or ts => disj (rebuildAll ts)

def rebuildAll : List Tree → List Tree
  | [] => []
  | t :: ts => rebuild t :: rebuildAll ts
end

end Tree
end RecordGraph.Algebra
