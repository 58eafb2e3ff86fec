import RecordGraph.Page.Window
import RecordGraph.Run.Engine
import RecordGraph.Run.Selection
import RecordGraph.Run.Trace

/-!
Rendering records. A relation whose entry in `take` is a nested state is rendered deeply: the targets
of all records of the level are loaded at once, rendered one level down, and dealt out again by how
many each record has. Any other relation is reduced to the ids it holds.
-/
namespace RecordGraph

/-- Linked records reduced to their ids, where the key of those is known. -/
def shallow (idKey : Option String) : Value → Value
  | .arr xs => .arr (shallowAll idKey xs)
  | .obj es =>
    match idKey with
    | some key => (Entries.get? es key).getD (.obj es)
    | none => .obj es
  | v => v
where
  shallowAll (idKey : Option String) : List Value → List Value
    | [] => []
    | x :: xs => shallow idKey x :: shallowAll idKey xs

/-- The ids that the value of a relation holds. -/
def linkedIds (key : String) (v : Value) : List Value :=
  let items := match v with
    | .arr xs => xs
    | .null => []
    | other => [other]
  (items.map (shallow (some key))).filter fun id => !id.isNull

/-- Cut a list into parts of the given lengths. -/
def deal {α : Type} : List Nat → List α → List (List α)
  | [], _ => []
  | n :: ns, xs => xs.take n :: deal ns (xs.drop n)

/-- Values with the same text taken once, at their first place. -/
def distinctIds (ids : List Value) : List Value :=
  ids.foldl (fun seen id => if seen.any fun s => idText s == idText id then seen else seen ++ [id]) []

namespace Engine

/-- The value of a field before links are followed; null falls back to the default. -/
def fieldValue (ctx : Context) (r : Resource) (f : Field) (record : Option Record) :
    Except QueryError Value := do
  let value ← match f.source with
    | .path path =>
      match record with
      | some stored => Except.ok ((stored.read path).getD .null)
      | none => Except.error (QueryError.serialization (.noRecord r.id f.name path))
    | .context path => Except.ok (((ctx.recordScope record).lookup path).getD .null)
    | .expression expr =>
      match Expr.eval (ctx.recordScope record) expr with
      | .ok v => Except.ok v
      | .error e => Except.error (QueryError.ofEval e)
  match value, f.default with
  | .null, some default => return default
  | v, _ => return v

/-- What a deeply rendered relation needs to know of its target before it reads anything. -/
structure Target where
  resource : Resource
  level : Level
  fields : List Field
  size : UInt64
  predicates : List Value
  sort : List SortKey
  source : String

/-- Find the target of a relation, check the permission to follow it, and prepare its level. -/
def target (e : Engine) (ctx : Context) (r : Resource) (f : Field) (link : String) (level : Level) :
    Except QueryError Target := do
  let some related := e.server.resolveLink r.space link
    | throw (.serialization (.unresolvedLink r.id f.name link))
  let below := level.enter f.name
  let access ← can related "get.prefetch" ctx (some f)
  if access.isDenied then throw (.forbidden "get.prefetch" related.id)
  let fields ← takeFields related "get" below ctx e.settings
  let scope ← ctx.query.scope below
  let predicates ← e.prepareAll related ctx access (scope.state?.bind Query.filter)
  let sort ← e.prepareSort related (scope.state?.bind Query.sort)
  let some source := related.source | throw (.misconfigured (.noTargetSource related.id))
  return ⟨related, below, fields, scope.pageSize e.settings.pageSize, predicates, sort, source⟩

/-- The ids of the records, null where a record has none. -/
def parentIds (r : Resource) (records : List (Option Record)) : List Value :=
  records.map fun record => (record.bind fun stored => stored.read r.idKey).getD .null

/-- The request for the targets that stored records link to. -/
def relatedRequest (r : Resource) (f : Field) (t : Target) (source path : String)
    (parents : List Value) : FetchRelated :=
  { relation := {
      source := source, parentKey := r.idKey, field := path, target := t.source
      targetKey := t.resource.idKey
      inverse := f.inverse.map fun name =>
        ((t.resource.field? name).bind fun g => g.source.storagePath?).getD name
      many := f.isList }
    parents := parents
    predicate := conjoin t.predicates
    sort := t.sort
    offset := 0
    limit := some (if f.isList then Window.oneMore t.size else 1) }

/-- The targets of every record, through what the store holds. -/
def loadStored (e : Engine) (r : Resource) (f : Field) (t : Target) (source path : String)
    (records : List (Option Record)) : Run (List (List Record)) := do
  let parents := parentIds r records
  let groups ← e.store.runRelated (relatedRequest r f t source path parents)
  return parents.map fun id => (groups.lookup (idText id)).getD []

/-- The request for the targets with the given ids. -/
def computedRequest (t : Target) (ids : List Value) : Fetch :=
  { source := t.source
    predicate := conjoin (inPredicate t.resource.idKey ids :: t.predicates)
    sort := t.sort }

/-- The records of one row among those fetched: in sorted order, or in the order of its ids. -/
def pick (key : String) (sorted : Bool) (fetched : List Record) (ids : List Value) : List Record :=
  let texts := ids.map idText
  let textOf (r : Record) := (r.read key).map idText
  if sorted then fetched.filter fun r => (textOf r).any fun id => texts.contains id
  else texts.filterMap fun id => fetched.reverse.find? fun r => textOf r == some id

/-- The targets of every row of computed ids. -/
def loadComputed (e : Engine) (t : Target) (values : List Value) : Run (List (List Record)) := do
  let key := t.resource.idKey
  let rows := values.map (linkedIds key)
  match distinctIds rows.flatten with
  | [] => return rows.map fun _ => []
  | ids =>
    let fetched ← e.store.runFetch (computedRequest t ids)
    return rows.map (pick key (!t.sort.isEmpty) fetched.records)

/-- The targets of every record, by how the relation is stored. -/
def loadTargets (e : Engine) (r : Resource) (f : Field) (t : Target)
    (records : List (Option Record)) (values : List Value) : Run (List (List Record)) :=
  match f.source, r.source with
  | .path path, some source => e.loadStored r f t source path records
  | _, _ => e.loadComputed t values

/-- Render a batch of records, one value for each. -/
abbrev Renderer := Batch → Run (List Value)

/-- The values of a deeply rendered relation, one for each record. -/
def renderRelated (e : Engine) (ctx : Context) (render : Renderer) (r : Resource) (f : Field)
    (link : String) (records : List (Option Record)) (values : List Value) (level : Level) :
    Run (List Value) := do
  let t ← e.target ctx r f link level
  let groups ← e.loadTargets r f t records values
  let keep := if f.isList then t.size.toNat else 1
  let groups := groups.map fun group => group.take keep
  let rendered ← render ⟨some f, t.resource, t.fields, groups.flatten.map some, t.level⟩
  return (deal (groups.map List.length) rendered).map fun items =>
    if f.isList then .arr items else items.headD .null

/-- Whether a relation is rendered deeply. -/
def isDeep (ctx : Context) (scope : Scope) (f : Field) (level : Level) : Bool :=
  if ctx.query.field.isSome && level.isEmpty then ctx.query.take.isSome
  else match (scope.take?.getD []).lookup f.name with
    | some (.nested _) => true
    | _ => false

/-- The values of one field, one for each record of a batch. -/
def renderColumn (e : Engine) (ctx : Context) (render : Renderer) (scope : Scope) (b : Batch)
    (f : Field) : Run (List Value) := do
  let values ← Run.ofExcept (b.records.mapM (fieldValue ctx b.resource f))
  let plain := values.map (shallow ((e.server.target? b.resource f).map Resource.idKey))
  if !isDeep ctx scope f b.level then return plain
  match f.link? with
  | some link => e.renderRelated ctx render b.resource f link b.records values b.level
  | none =>
    if ctx.query.field.isSome && b.level.isEmpty then return plain
    else Run.fail (.serialization (.noLink b.resource.id f.name))

/-- The value at a row of a column. -/
def cell (column : List Value) (row : Nat) : Value := (column[row]?).getD .null

/-- Rows from columns. With a field as target, a row at the root is the value of that field. -/
def assemble (collapse : Bool) (names : List String) (columns : List (List Value)) (rows : Nat) :
    List Value :=
  (List.range rows).map fun row =>
    if collapse then cell (columns.headD []) row
    else .object ((names.zip columns).map fun (name, column) => (name, cell column row))

/-- Render a batch, at most `fuel` levels deep. -/
def render (e : Engine) (ctx : Context) : Nat → Renderer
  | 0, b => Run.fail (.serialization (.endless b.resource.id b.level))
  | fuel + 1, b => do
    Run.hand b
    let scope ← ctx.query.scope b.level
    let columns ← Run.each (e.renderColumn ctx (render e ctx fuel) scope b) b.fields
    let collapse := ctx.query.field.isSome && b.level.isEmpty
    return assemble collapse (b.fields.map Field.name) columns b.records.length

mutual
/-- How deeply states are nested in a state. -/
def takeDepth : Query → Nat
  | { take := some ts, .. } => takesDepth ts
  | _ => 0

def takesDepth : List (String × Take) → Nat
  | [] => 0
  | (_, t) :: ts => max (entryDepth t) (takesDepth ts)

def entryDepth : Take → Nat
  | .flag _ => 0
  | .nested q => takeDepth q + 1
end

/-- More levels than any query enters that reaches an end: a level that does not descend in `take`
has to reach another resource. -/
def levelBound (e : Engine) (q : Query) : Nat :=
  (takeDepth q + 2) * ((e.server.spaces.flatMap fun (_, s) => s.resources).length + 1)

/-- Render the selected fields of records at the root. -/
def renderRoot (e : Engine) (ctx : Context) (r : Resource) (fields : List Field)
    (records : List (Option Record)) : Run (List Value) :=
  e.render ctx (e.levelBound ctx.query) ⟨none, r, fields, records, Level.root⟩

end Engine
end RecordGraph
