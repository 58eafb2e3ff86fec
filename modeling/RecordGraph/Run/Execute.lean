import RecordGraph.Run.Get

/-!
Execution of queries. Reading is the one action that reaches records; a query may also ask for the
description of its target, or for the actions that the requester may run on it.
-/
namespace RecordGraph

namespace Engine

def findField (r : Resource) (name : String) : Except QueryError Field :=
  match r.field? name with
  | some f => .ok f
  | none => .error (.notFound (.field r.id name))

/-- The description of what a query targets. -/
def explain (e : Engine) (q : Query) : Except QueryError Response :=
  match q.endpoint with
  | .server => .ok { data := .node "server" e.server.describe }
  | .space =>
    (e.findSpace (q.space.getD "")).map fun space => { data := .node "space" space.describe }
  | .field => do
    let r ← e.findResource q
    let f ← findField r (q.field.getD "")
    return { data := .node "field" f.describe }
  | _ => (e.findResource q).map fun r => { data := .node "resource" r.describe }

/-- The actions that are carried out at all. -/
def isSupported : Action → Bool
  | .get | .explain | .options => true
  | _ => false

/-- Whether the requester may run an action on a resource, and on one of its fields. -/
def isAllowed (e : Engine) (ctx : Context) (r : Resource) (field : Option Field)
    (action : Action) : Except QueryError Bool := do
  let access ← can r (action.name ++ "." ++ ctx.query.endpoint.name) ctx none
  if access.isDenied then return false
  match field with
  | some f => canTakeField f action.name ctx e.settings
  | none => return true

/-- What a query targets below its space, none for servers and spaces. -/
def optionsTarget (e : Engine) (q : Query) : Except QueryError (Option (Resource × Option Field)) :=
  match q.endpoint with
  | .server => .ok none
  | .space => (e.findSpace (q.space.getD "")).map fun _ => none
  | _ => do
    let r ← e.findResource q
    match q.field with
    | some name => return some (r, some (← findField r name))
    | none => return some (r, none)

/-- For every action, whether the requester may run it on the target. -/
def options (e : Engine) (ctx : Context) : Except QueryError Response := do
  let target ← e.optionsTarget ctx.query
  let actions ← Action.all.mapM fun action => do
    let allowed ← match target with
      | none => .ok true
      | some (r, field) => e.isAllowed ctx r field action
    return (action.name, Value.bool (isSupported action && allowed))
  return { data := .node "actions" (.object actions) }

/-- Execute a query for a requester. -/
def execute (e : Engine) (q : Query) (request : Value) : Run Response :=
  let ctx : Context := ⟨q, request⟩
  match q.action.getD .get with
  | .get => e.get ctx
  | .explain => e.explain q
  | .options => e.options ctx
  | action => Run.fail (.execution (.unsupported action.name))

end Engine
end RecordGraph
