import RecordGraph.Predicate.Context
import RecordGraph.Predicate.Resolve
import RecordGraph.Text.Blank

/-!
Permissions of resources. The rules of a table that cover an action are resolved against the request:
one that holds gives access to every record, those that remain predicates to the records they admit.
Where no rule covers an action, it is open.
-/
namespace RecordGraph

/-- The records an action may touch. -/
inductive Access where
  | all
  | denied
  | only (predicate : Value)

namespace Access

def isDenied : Access → Bool
  | denied => true
  | _ => false

def predicate? : Access → Option Value
  | only predicate => some predicate
  | _ => none

end Access

/-- Whether one part of a key covers an action: a name, a name with an endpoint, or stars. -/
def partCovers (name endpoint action part : String) : Bool :=
  match Text.splitFirst '.' part with
  | (a, some e) => part == action || (a == "*" && e == endpoint) || (e == "*" && a == name)
  | (_, none) => part == "*" || part == name

/-- Whether a key, a list of parts in any case, covers an action given as a name and an endpoint. -/
def covers (key action : String) : Bool :=
  let (name, endpoint) := Text.splitFirst '.' action
  (Text.pieces ',' key).any fun part =>
    partCovers name (endpoint.getD "") action (Text.lower (Text.trim part))

/-- What a rule comes to. -/
inductive Verdict where
  | holds
  | fails
  | depends (predicate : Value)

def Verdict.ofResolved : Value → Verdict
  | .obj es => .depends (.obj es)
  | v => if Expr.truthy v then .holds else .fails

/-- The predicates of rules up to one that holds, for which there is none. -/
def collectRules (scope : Value) (resource : String) :
    List (String × Value) → Except QueryError (Option (List Value))
  | [] => .ok (some [])
  | (key, rule) :: rest =>
    match resolve scope rule with
    | .error e => .error (.misconfigured (.ruleUnresolved resource key e))
    | .ok resolved =>
      match Verdict.ofResolved resolved with
      | .holds => .ok none
      | .fails => collectRules scope resource rest
      | .depends predicate =>
        (collectRules scope resource rest).map fun found => found.map (predicate :: ·)

/-- The access that the rules of a resource give for an action. -/
def ruledAccess (r : Resource) (action : String) (ctx : Context) : Except QueryError Access :=
  match r.can with
  | none => .ok .all
  | some table =>
    match table.filter fun (key, _) => covers key action with
    | [] => .ok .all
    | rules =>
      (collectRules ctx.scope r.id rules).map fun found => match found with
        | none => .all
        | some [] => .denied
        | some [predicate] => .only predicate
        | some predicates => .only (.node "or" (.arr predicates))

/-- Whether a relation field opens its target by itself. -/
def prefetchGranted (r : Resource) (ctx : Context) (field : Option Field) :
    Except QueryError Bool :=
  match (field.bind Field.can).bind fun table => table.get? "prefetch" with
  | none => .ok false
  | some rule =>
    match resolve ctx.scope rule with
    | .error e => .error (.misconfigured (.prefetchUnresolved r.id e))
    | .ok (.bool b) => .ok b
    | .ok .null => .ok false
    | .ok v => .error (.misconfigured (.prefetchNotBoolean r.id v))

/-- The access to a resource for an action, reached through `field` if there is one. -/
def can (r : Resource) (action : String) (ctx : Context) (field : Option Field) :
    Except QueryError Access := do
  if ← prefetchGranted r ctx field then return .all
  ruledAccess r (Text.lower action) ctx

end RecordGraph
