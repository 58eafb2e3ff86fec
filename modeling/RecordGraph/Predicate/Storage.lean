import RecordGraph.Store.Memory

/-!
From field names to storage paths. A path through a link continues with the fields of the linked
resource; below a field without a link, segments are kept as they are.
-/
namespace RecordGraph

/-- The storage path of a field of a resource. -/
def Resource.storagePath (r : Resource) (name : String) : Except QueryError (Field × String) :=
  match r.field? name with
  | none => .error (.query (.unknownField r.id name))
  | some f =>
    match f.source.storagePath? with
    | none => .error (.query (.computedField r.id name))
    | some path => .ok (f, path)

namespace Server

/-- The resource a field links to. -/
def target? (s : Server) (r : Resource) (f : Field) : Option Resource :=
  f.link?.bind fun link => s.resolveLink r.space link

/-- The storage path that the segments of a field path name. -/
def storageSegments (s : Server) (r : Resource) : List String → Except QueryError String
  | [] => .error (.query (.unknownField r.id ""))
  | [name] => (r.storagePath name).map Prod.snd
  | name :: rest =>
    (r.storagePath name).bind fun (f, path) =>
      match s.target? r f with
      | some related => (s.storageSegments related rest).map fun below => path ++ "." ++ below
      | none => .ok (path ++ "." ++ Text.join "." rest)

/-- The storage path of a dotted field path. -/
def storagePath (s : Server) (r : Resource) (path : String) : Except QueryError String :=
  s.storageSegments r (Text.pieces '.' path)

mutual
/-- A predicate with every reference to a field turned into its storage path. -/
def toStorage (s : Server) (r : Resource) : Value → Except QueryError Value
  | .obj es => (toStorageEntries s r es).map .obj
  | .arr xs => (toStorageItems s r xs).map .arr
  | .str path =>
    if path.isEmpty || (Text.afterChar? '.' path).isSome || (Expr.unquoted? path).isSome then
      .ok (.str path)
    else (s.storagePath r path).map .str
  | v => .ok v

def toStorageItems (s : Server) (r : Resource) : List Value → Except QueryError (List Value)
  | [] => .ok []
  | x :: xs => (toStorage s r x).bind fun v => (toStorageItems s r xs).map (v :: ·)

/-- What a literal holds is left as it is. -/
def toStorageEntries (s : Server) (r : Resource) :
    List (String × Value) → Except QueryError (List (String × Value))
  | [] => .ok []
  | (k, x) :: es =>
    (if k = "literal" then .ok x else toStorage s r x).bind fun v =>
      (toStorageEntries s r es).map ((k, v) :: ·)
end

/-- Sort keys over storage paths. -/
def sortKeys (s : Server) (r : Resource) (keys : List String) : Except QueryError (List SortKey) :=
  keys.mapM fun key =>
    let key := SortKey.ofText key
    (s.storagePath r key.path).map fun path => ⟨path, key.descending⟩

end Server
end RecordGraph
