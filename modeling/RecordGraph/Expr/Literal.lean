import RecordGraph.Value.Basic

/-!
Literals inside expressions. Unquoted text is a reference; text between two equal quotes, single or
double, stands for what is between them. All other scalars stand for themselves.
-/
namespace RecordGraph.Expr

def isQuote (c : Char) : Bool := c == '"' || c == '\''

/-- What stands between the quotes of a quoted text. -/
def unquoted? (s : String) : Option String :=
  match s.toList with
  | c :: d :: rest =>
    if isQuote c && (d :: rest).getLast? == some c then some (String.ofList (d :: rest).dropLast)
    else none
  | _ => none

/-- Text between double quotes. -/
def quote (s : String) : String := "\"" ++ s ++ "\""

mutual
/-- Scalars, quoted texts, and lists of literals. -/
def isLiteral : Value → Bool
  | .str s => (unquoted? s).isSome
  | .arr xs => allLiteral xs
  | .obj _ => false
  | _ => true

def allLiteral : List Value → Bool
  | [] => true
  | x :: xs => isLiteral x && allLiteral xs
end

mutual
/-- Take the quotes off, also inside lists. -/
def unliteral : Value → Value
  | .str s => .str ((unquoted? s).getD s)
  | .arr xs => .arr (unliteralAll xs)
  | v => v

def unliteralAll : List Value → List Value
  | [] => []
  | x :: xs => unliteral x :: unliteralAll xs
end

mutual
/-- Put quotes around texts, also inside lists. -/
def makeLiteral : Value → Value
  | .str s => .str (quote s)
  | .arr xs => .arr (makeLiteralAll xs)
  | v => v

def makeLiteralAll : List Value → List Value
  | [] => []
  | x :: xs => makeLiteral x :: makeLiteralAll xs
end

/-- Null, false, zero and whatever is empty count as false. -/
def truthy : Value → Bool
  | .null => false
  | .bool b => b
  | .num n => !n.toDouble.isZero
  | .str s => !s.isEmpty
  | .arr xs => !xs.isEmpty
  | .obj es => !es.isEmpty

end RecordGraph.Expr
