import RecordGraph.Expr.Eval
import RecordGraph.Graph.Server
import RecordGraph.Store.Error

/-!
Records in memory, and the two ways to read them: one collection under a predicate, and the targets
of a relation for each of several parents. Both sort before they cut out a window.
-/
namespace RecordGraph

/-- A stored record. -/
abbrev Record := Entries Value

/-- The text by which identifiers are compared. -/
def idText : Value → String
  | .str s => s
  | v => v.text

/-- The value at a storage path: its first segment is a key of the record. -/
def Record.read (r : Record) (path : String) : Option Value :=
  match Text.splitFirst '.' path with
  | (head, some rest) => (r.get? head).bind fun v => v.lookup rest
  | (_, none) => r.get? path

/-! Sorting -/

structure SortKey where
  path : String
  descending : Bool
deriving DecidableEq

/-- A leading minus sign sorts downward. -/
def SortKey.ofText (s : String) : SortKey :=
  match Text.afterChar? '-' s with
  | some path => ⟨path, true⟩
  | none => ⟨s, false⟩

/-- Missing values and nulls rank before all others. -/
def rank : Option Value → Nat
  | none => 0
  | some .null => 0
  | some _ => 1

/-- The order of two values in a column; values of different kinds do not differ in rank. -/
def orderColumn (left right : Option Value) : Ordering :=
  let byRank := compare (rank left) (rank right)
  match left, right with
  | some a, some b => (Expr.order a b).getD byRank
  | _, _ => byRank

def SortKey.order (key : SortKey) (a b : Record) : Ordering :=
  let o := orderColumn (a.read key.path) (b.read key.path)
  if key.descending then o.swap else o

/-- The first key that tells two records apart decides. -/
def orderRecords (keys : List SortKey) (a b : Record) : Ordering :=
  ((keys.map fun key => key.order a b).find? fun o => o != .eq).getD .eq

/-- Put a record into a reversed sorted list, after all that it does not come before. -/
def insertReversed (keys : List SortKey) (r : Record) : List Record → List Record
  | [] => [r]
  | s :: rest =>
    if orderRecords keys r s = .lt then s :: insertReversed keys r rest else r :: s :: rest

/-- Records in the order of the keys; records that the keys do not tell apart keep their order. -/
def sortRecords (keys : List SortKey) (records : List Record) : List Record :=
  if keys.isEmpty then records
  else (records.foldl (fun sorted r => insertReversed keys r sorted) []).reverse

/-! Requests -/

/-- Read the records of one collection. -/
structure Fetch where
  source : String
  predicate : Option Value := none
  sort : List SortKey := []
  offset : UInt64 := 0
  limit : Option UInt64 := none
  /-- Report how many records match, whatever the window. -/
  count : Bool := false

structure Fetched where
  records : List Record
  total : Option Nat

/-- How a field connects parent records to their targets. -/
structure Relation where
  source : String
  parentKey : String
  field : String
  target : String
  targetKey : String
  /-- The key of a target that points back at its parents. -/
  inverse : Option String
  many : Bool

/-- Read the targets of a relation; sort and window apply to each parent on its own. -/
structure FetchRelated where
  relation : Relation
  parents : List Value
  predicate : Option Value := none
  sort : List SortKey := []
  offset : UInt64 := 0
  limit : Option UInt64 := none

/-- Collections of records by name. -/
abbrev Store := Entries (List Record)

namespace Store

/-- Put a collection in place; what is not a record is passed over. -/
def put (store : Store) (name : String) (records : List Value) : Store :=
  Entries.insert name (records.filterMap Value.obj?) store

/-- The store that a map of lists describes. -/
def ofValue (v : Value) : Except StoreError Store :=
  match v with
  | .obj es => es.foldlM (fun (store : Store) (name, records) => match records with
      | .arr records => .ok (store.put name records)
      | _ => .error (.backend (.notList name))) []
  | _ => .error (.backend .notCollections)

def collection (store : Store) (name : String) : Except StoreError (List Record) :=
  match Entries.get? store name with
  | some records => .ok records
  | none => .error (.unknownSource name)

/-- Whether a record satisfies a predicate. -/
def isMatch (predicate : Option Value) (r : Record) : Except StoreError Bool :=
  match predicate with
  | none => .ok true
  | some p =>
    match Expr.eval (.node "fields" (.obj r)) p with
    | .ok v => .ok (Expr.truthy v)
    | .error e => .error (.predicate e)

/-- The records that satisfy a predicate, in order. -/
def select (predicate : Option Value) : List Record → Except StoreError (List Record)
  | [] => .ok []
  | r :: rs => do
    let keep ← isMatch predicate r
    let rest ← select predicate rs
    return if keep then r :: rest else rest

/-- The records of a window. -/
def window (offset : UInt64) (limit : Option UInt64) (records : List Record) : List Record :=
  let rest := records.drop offset.toNat
  match limit with
  | some n => rest.take n.toNat
  | none => rest

def fetch (store : Store) (request : Fetch) : Except StoreError Fetched := do
  let records ← store.collection request.source
  let matched := sortRecords request.sort (← select request.predicate records)
  return {
    records := window request.offset request.limit matched
    total := if request.count then some matched.length else none }

def hasId (key id : String) (r : Record) : Bool := (r.get? key).any fun v => idText v == id

/-- The targets that a stored value links to: one for each id of a list, all for a single id. -/
def linked (targetKey : String) (targets : List Record) : Value → List Record
  | .arr ids => ids.filterMap fun id => targets.find? (hasId targetKey (idText id))
  | id => targets.filter (hasId targetKey (idText id))

/-- Whether a target points back at a parent, by an id or in a list of ids. -/
def pointsBack (inverse parent : String) (r : Record) : Bool :=
  match r.get? inverse with
  | some (.arr ids) => ids.any fun id => idText id == parent
  | some v => idText v == parent
  | none => false

/-- The targets of the parent with the given id, before any predicate. -/
def candidates (relation : Relation) (parents targets : List Record) (parent : String) : List Record :=
  let stored := ((parents.find? (hasId relation.parentKey parent)).bind fun r =>
    r.read relation.field).filter fun v => !v.isNull
  match stored, relation.inverse with
  | some v, _ => linked relation.targetKey targets v
  | none, some inverse => targets.filter (pointsBack inverse parent)
  | none, none => []

/-- The targets of every parent, by the text of its id. -/
def fetchRelated (store : Store) (request : FetchRelated) :
    Except StoreError (List (String × List Record)) := do
  let parents ← store.collection request.relation.source
  let targets ← store.collection request.relation.target
  let ids := (request.parents.map idText).eraseDups
  ids.mapM fun id => do
    let found := candidates request.relation parents targets id
    let matched := sortRecords request.sort (← select request.predicate found)
    return (id, window request.offset request.limit matched)

/-! Describing stored fields -/

def kindName : Value → String
  | .null => "null"
  | .bool _ => "boolean"
  | .num _ => "number"
  | .str _ => "string"
  | .arr _ => "array"
  | .obj _ => "object"

/-- What the stored values at a path have in common. -/
def describe (store : Store) : Schema := fun source path =>
  match Entries.get? store source with
  | none => none
  | some records =>
    let values := (records.filterMap fun r => r.read path).filter fun v => !v.isNull
    match values with
    | [] => none
    | first :: _ =>
      let kind := kindName first
      some {
        type := .str (if values.all fun v => kindName v == kind then kind else "any")
        default := none
        nullable := values.length < records.length
        unique := (kind == "string" || kind == "number") &&
          ((values.map idText).eraseDups).length == values.length
        indexed := false }

end Store
end RecordGraph
