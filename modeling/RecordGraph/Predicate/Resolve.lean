import RecordGraph.Expr.Eval

/-!
Partial evaluation against the request and the query. Rooted references are replaced by what they
point at, as data, and methods whose operands are all literal are replaced by their results.
-/
namespace RecordGraph

/-- What a rooted reference stands for. Text becomes a literal, unless the reference ends with a
point, which keeps it as a reference of its own. -/
def resolveReference (scope : Value) (path : String) : Value :=
  let (target, asLiteral) := match path.toList.reverse with
    | '.' :: rest => (String.ofList rest.reverse, false)
    | _ => (path, true)
  match (scope.lookup target).getD .null with
  | .str s => if asLiteral then .str (Expr.quote s) else .str s
  | v => v

/-- The node itself, or its result as a literal where a method has only literal operands. -/
def fold (scope : Value) (es : List (String × Value)) : Except Expr.EvalError Value :=
  match es with
  | [(name, args)] =>
    if Expr.isMethod name && Expr.isLiteral args then
      (Expr.eval scope (.obj es)).map Expr.makeLiteral
    else .ok (.obj es)
  | _ => .ok (.obj es)

mutual
def resolve (scope : Value) : Value → Except Expr.EvalError Value
  | .obj es => (resolveEntries scope es).bind (fold scope)
  | .arr xs => (resolveItems scope xs).map .arr
  | .str s =>
    match Text.afterChar? '.' s with
    | some path => .ok (resolveReference scope path)
    | none => .ok (.str s)
  | v => .ok v

def resolveItems (scope : Value) : List Value → Except Expr.EvalError (List Value)
  | [] => .ok []
  | x :: xs => (resolve scope x).bind fun v => (resolveItems scope xs).map (v :: ·)

def resolveEntries (scope : Value) :
    List (String × Value) → Except Expr.EvalError (List (String × Value))
  | [] => .ok []
  | (k, x) :: es => (resolve scope x).bind fun v => (resolveEntries scope es).map ((k, v) :: ·)
end

end RecordGraph
