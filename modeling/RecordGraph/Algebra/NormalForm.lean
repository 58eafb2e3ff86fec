import RecordGraph.Algebra.Tree

/-!
Negation normal form and conjunctive normal form. Both are computed with the sign under which a
subtree stands, so negations are pushed inward by the recursion itself.
-/
namespace RecordGraph.Algebra

namespace Tree

/-- A conjunct of a conjunctive form: a literal or a disjunction of literals. -/
def isClause : Tree → Bool
  | .or ts => ts.all isLiteral
  | t => t.isLiteral

/-- A disjunct of a disjunctive form: a literal or a conjunction of literals. -/
def isTerm : Tree → Bool
  | .and ts => ts.all isLiteral
  | t => t.isLiteral

/-- A conjunction of clauses, or one clause. -/
def isCnf : Tree → Bool
  | .and ts => ts.all isClause
  | t => t.isClause

/-- A disjunction of terms, or one term. -/
def isDnf : Tree → Bool
  | .or ts => ts.all isTerm
  | t => t.isTerm

mutual
/-- Push negations down to the symbols; `positive` is false under an odd number of them. -/
def nnf (positive : Bool) : Tree → Tree
  | .symbol name => if positive then .symbol name else .not (.symbol name)
  | .not t => nnf (!positive) t
  | .and ts => if positive then conj (nnfAll positive ts) else disj (nnfAll positive ts)
  | .or ts => if positive then disj (nnfAll positive ts) else conj (nnfAll positive ts)

def nnfAll (positive : Bool) : List Tree → List Tree
  | [] => []
  | t :: ts => nnf positive t :: nnfAll positive ts
end

def toNnf (t : Tree) : Tree := t.nnf true

end Tree

/-- A symbol with its sign. -/
structure Literal where
  positive : Bool
  name : String
deriving DecidableEq

def Literal.tree (l : Literal) : Tree :=
  if l.positive then .symbol l.name else .not (.symbol l.name)

/-- A disjunction of literals. -/
abbrev Clause := List Literal

/-- The literals of both clauses, each once, in the order they first appear. -/
def Clause.merge (left right : Clause) : Clause :=
  right.foldl (fun clause l => if l ∈ clause then clause else clause ++ [l]) left

/-- One clause from each list, in every combination. -/
def distribute (choices : List (List Clause)) : List Clause :=
  choices.foldl (fun acc next => acc.flatMap fun left => next.map fun right => left.merge right) [[]]

namespace Tree

mutual
/-- The clauses of a conjunctive form of the tree, or of its negation. -/
def clauses (positive : Bool) : Tree → List Clause
  | .symbol name => [[⟨positive, name⟩]]
  | .not t => clauses (!positive) t
  | .and ts => if positive then (clausesEach positive ts).flatten else distribute (clausesEach positive ts)
  | .or ts => if positive then distribute (clausesEach positive ts) else (clausesEach positive ts).flatten

def clausesEach (positive : Bool) : List Tree → List (List Clause)
  | [] => []
  | t :: ts => clauses positive t :: clausesEach positive ts
end

/-- An equivalent tree in conjunctive form. -/
def toCnf (t : Tree) : Tree := conj ((t.clauses true).map fun clause => disj (clause.map Literal.tree))

end Tree
end RecordGraph.Algebra
