import RecordGraph.Algebra.Token
import RecordGraph.Algebra.Tree

/-!
From tokens to trees. `not` binds tighter than `and`, and `and` tighter than `or`. Parentheses and
negations may be nested 64 deep.
-/
namespace RecordGraph.Algebra

inductive ParseError where
  | lex (error : LexError)
  | unexpectedToken (found : Token) (expected : String)
  | unexpectedEof
  | tooDeep
deriving DecidableEq

def maxDepth : Nat := 64

def ParseError.message : ParseError → String
  | lex error => "lex error: " ++ error.message
  | unexpectedToken found expected =>
    "unexpected token: " ++ found.text ++ ", expected: " ++ expected
  | unexpectedEof => "unexpected end of input"
  | tooDeep => "expression nested deeper than " ++ maxDepth.repr ++ " levels"

/-- A reader of trees from the front of a token list. -/
abbrev Reader (α : Type) := List Token → Except ParseError (α × List Token)

/-- Operands read by `operand` and separated by `separator`; at most `fuel` of them. -/
def chain (separator : Token) (operand : Reader Tree) : Nat → Reader (List Tree)
  | 0, tokens => .ok ([], tokens)
  | fuel + 1, tokens => do
    let (t, rest) ← operand tokens
    match rest with
    | next :: rest' =>
      if next = separator then
        let (ts, rest) ← chain separator operand fuel rest'
        return (t :: ts, rest)
      else return ([t], rest)
    | [] => return ([t], rest)

/-- Operands joined by `and`. -/
def conjunction (operand : Reader Tree) : Reader Tree := fun tokens => do
  let (ts, rest) ← chain .and operand (tokens.length + 1) tokens
  return (.conj ts, rest)

/-- Conjunctions joined by `or`. -/
def disjunction (operand : Reader Tree) : Reader Tree := fun tokens => do
  let (ts, rest) ← chain .or (conjunction operand) (tokens.length + 1) tokens
  return (.disj ts, rest)

/-- Refuse a token where another was expected; the end of the input has a message of its own. -/
def unexpected (found : Token) (expected : String) : ParseError :=
  if found = .eof then .unexpectedEof else .unexpectedToken found expected

/-- The rest after a closing parenthesis. -/
def closing : List Token → Except ParseError (List Token)
  | .rparen :: rest => .ok rest
  | found :: _ => .error (unexpected found Token.rparen.text)
  | [] => .error .unexpectedEof

/-- A symbol, a negation or a parenthesis, with `depth` further levels allowed below. -/
def unary (depth : Nat) : Reader Tree
  | .symbol name :: rest => .ok (.symbol name, rest)
  | .not :: rest =>
    match depth with
    | 0 => .error .tooDeep
    | depth + 1 => (unary depth rest).map fun (t, rest) => (.not t, rest)
  | .lparen :: rest =>
    match depth with
    | 0 => .error .tooDeep
    | depth + 1 => do
      let (t, rest) ← disjunction (unary depth) rest
      return (t, ← closing rest)
  | found :: _ => .error (unexpected found "symbol or (")
  | [] => .error .unexpectedEof

/-- The tree of a whole token list. -/
def parseTokens (tokens : List Token) : Except ParseError Tree := do
  let (t, rest) ← disjunction (unary maxDepth) tokens
  match rest with
  | [] => return t
  | .eof :: _ => return t
  | found :: _ => throw (.unexpectedToken found "end of input")

/-- The tree of a text. -/
def parse (text : String) : Except ParseError Tree :=
  match tokenize text with
  | .error e => .error (.lex e)
  | .ok spanned => parseTokens (spanned.map Spanned.token)

end RecordGraph.Algebra
