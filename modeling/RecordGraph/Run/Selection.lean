import RecordGraph.Permission.Field
import RecordGraph.Run.Scope

/-!
The fields that are rendered at a level: those the level takes and the requester may see.
-/
namespace RecordGraph

/-- Whether a level takes a field. Without a `take` all but lazy fields are taken; with one, the id
field and, under a star, every field that it does not name. -/
def shouldTake (f : Field) (take : Option (Entries Take)) (idName : String) : Bool :=
  match take with
  | none => !f.isLazy
  | some entries =>
    match entries.get? f.name with
    | some entry => entry.isTaken
    | none => f.name == idName || (entries.get? "*").any Take.isTaken

/-- The fields among `fields` that are taken and permitted, in order. -/
def permitted (take : Option (Entries Take)) (idName action : String) (ctx : Context)
    (settings : Settings) : List Field → Except QueryError (List Field)
  | [] => .ok []
  | f :: rest => do
    let taken ←
      if shouldTake f take idName then canTakeField f action ctx settings else .ok false
    let fields ← permitted take idName action ctx settings rest
    return if taken then f :: fields else fields

/-- The field that a query targets, if the requester may use it. -/
def targetField (r : Resource) (name action : String) (ctx : Context) (settings : Settings) :
    Except QueryError Field :=
  match r.field? name with
  | none => .error (.notFound (.field r.id name))
  | some f => do
    if ← canTakeField f action ctx settings then return f
    throw (.methodNotAllowed action r.id name)

/-- The fields of a resource to render at a level. -/
def takeFields (r : Resource) (action : String) (level : Level) (ctx : Context)
    (settings : Settings) : Except QueryError (List Field) :=
  match ctx.query.field, level with
  | some name, [] => (targetField r name action ctx settings).map ([·])
  | _, _ => do
    let take := match ← ctx.query.scope level with
      | .ids => some [(r.idName, Take.flag true)]
      | .state q => q.take
    permitted take r.idName action ctx settings r.fields

end RecordGraph
