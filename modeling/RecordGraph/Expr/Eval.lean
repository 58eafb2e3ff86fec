import RecordGraph.Expr.Method
import RecordGraph.Value.Path

/-!
Evaluation of expressions against a context. Unquoted text refers into the context, a map with one
key calls the method of that name, and lists and larger maps are evaluated in place. `and` and `or`
stop at the first operand that decides them.
-/
namespace RecordGraph.Expr

/-- Paths that begin with one of these are read from the top of the context. -/
def isScoped (path : String) : Bool :=
  match (Text.pieces '.' path).head? with
  | some "fields" | some "request" | some "query" => true
  | _ => false

/-- The path from the top of the context that a reference stands for. A leading point is the top;
otherwise a context with a record under `fields` is read there. -/
def resolvedPath (path : String) (context : Value) : String :=
  match Text.afterChar? '.' path with
  | some rooted => rooted
  | none =>
    if (context.get? "fields").isSome && !isScoped path then "fields." ++ path else path

/-- The value a reference leads to, null if it leads nowhere. -/
def get (path : String) (context : Value) : Value :=
  ((context.lookup (resolvedPath path context)).getD .null)

/-- Quoted text stands for its inside, empty text for itself, other text is a reference. -/
def evalText (context : Value) (s : String) : Value :=
  match unquoted? s with
  | some inner => .str inner
  | none => if s.isEmpty then .str s else get s context

/-- The path that the operand of `get` names. -/
def pathOperand : Value → Option String
  | .str s => some s
  | .arr [.str s] => some s
  | _ => none

mutual
def eval (context : Value) : Value → Except EvalError Value
  | .str s => .ok (evalText context s)
  | .arr xs => (evalItems context xs).map .arr
  | .obj [] => .ok (.obj [])
  | .obj [(name, args)] =>
    match Method.ofName? name with
    | none => .error (.invalidOperator name)
    | some .get =>
      match pathOperand args with
      | some path => .ok (get ((unquoted? path).getD path) context)
      | none => .error (.invalidArguments name .path)
    | some .all =>
      match args with
      | .arr [] => .error (.invalidArguments name .atLeastOne)
      | .arr xs => (evalAll context xs).map .bool
      | _ => .error (.invalidArguments name .list)
    | some .any =>
      match args with
      | .arr [] => .error (.invalidArguments name .atLeastOne)
      | .arr xs => (evalAny context xs).map .bool
      | _ => .error (.invalidArguments name .list)
    | some .join =>
      match args with
      | .arr xs => (evalItems context xs).map (joinValues "")
      | .obj es =>
        (evalEntry context "values" es).map fun v => joinValues (separatorOf es) (spread v)
      | .str s => .ok (joinValues " " (spread (evalText context s)))
      | _ => .error (.invalidArguments name .joinable)
    | some .literal => .ok args
    | some .object =>
      match args with
      | .obj es => (evalEntries context es).map .obj
      | _ => .error (.invalidArguments name .object)
    | some (.unary op) =>
      match args with
      | .arr [x] => (eval context x).bind (op.apply name)
      | .arr _ => .error (.invalidArguments name .one)
      | v => (eval context v).bind (op.apply name)
    | some (.binary op) =>
      match args with
      | .arr [x, y] =>
        (eval context x).bind fun left =>
          (eval context y).map fun right => .bool (op.apply left right)
      | _ => .error (.invalidArguments name .two)
    | some (.variadic op) =>
      match args with
      | .arr xs => (evalItems context xs).map op.apply
      | _ => .error (.invalidArguments name .list)
  | .obj es => (evalEntries context es).map .obj
  | v => .ok v

/-- Every item in order; the first failure is the failure. -/
def evalItems (context : Value) : List Value → Except EvalError (List Value)
  | [] => .ok []
  | x :: xs => (eval context x).bind fun v => (evalItems context xs).map (v :: ·)

/-- Every entry in order, under its key. -/
def evalEntries (context : Value) :
    List (String × Value) → Except EvalError (List (String × Value))
  | [] => .ok []
  | (k, x) :: es => (eval context x).bind fun v => (evalEntries context es).map ((k, v) :: ·)

/-- The entry under `key`, null where there is none. -/
def evalEntry (context : Value) (key : String) :
    List (String × Value) → Except EvalError Value
  | [] => .ok .null
  | (k, x) :: es => if key = k then eval context x else evalEntry context key es

/-- Whether every item holds, deciding at the first that does not. -/
def evalAll (context : Value) : List Value → Except EvalError Bool
  | [] => .ok true
  | x :: xs => (eval context x).bind fun v => if truthy v then evalAll context xs else .ok false

/-- Whether some item holds, deciding at the first that does. -/
def evalAny (context : Value) : List Value → Except EvalError Bool
  | [] => .ok false
  | x :: xs => (eval context x).bind fun v => if truthy v then .ok true else evalAny context xs
end

end RecordGraph.Expr
