import RecordGraph.Graph.Settings
import RecordGraph.Permission.Access

/-!
Permissions of fields. The table of a field overrides the default table action by action; an action
that the tables do not name is denied, unless they are empty.
-/
namespace RecordGraph

/-- The rules for a field, without the one that opens the target of a relation. -/
def permissionTable (f : Field) (settings : Settings) : Entries Value :=
  (((f.can.getD []).foldl (fun table (key, rule) => table.insert key rule)
    settings.fieldPermissions)).filter fun (key, _) => key != "prefetch"

/-- What a rule of a field says: null allows, maps are evaluated, other values count as they are. -/
def ruleAllows (ctx : Context) : Value → Except QueryError Bool
  | .null => .ok true
  | .obj es =>
    match Expr.eval ctx.scope (.obj es) with
    | .ok v => .ok (Expr.truthy v)
    | .error e => .error (.ofEval e)
  | v => .ok (Expr.truthy v)

/-- Whether the condition a field depends on holds. -/
def isAvailable (f : Field) (ctx : Context) : Except QueryError Bool :=
  match f.depends with
  | none => .ok true
  | some condition =>
    match Expr.eval ctx.scope condition with
    | .ok v => .ok (Expr.truthy v)
    | .error e => .error (.ofEval e)

/-- Whether a field may be used for an action. -/
def canTakeField (f : Field) (action : String) (ctx : Context) (settings : Settings) :
    Except QueryError Bool := do
  if !(← isAvailable f ctx) then return false
  let table := permissionTable f settings
  if table.isEmpty then return true
  match (table.get? action).or (table.get? "*") with
  | none => return false
  | some rule => ruleAllows ctx rule

end RecordGraph
