import RecordGraph.Query.Querystring.Reader

/-!
Writing querystrings. A state is written as a path and parameters where these read back as the same
state, and as one parameter with its blob otherwise.
-/
namespace RecordGraph

/-- Parameters in the order they are written; none for what has no textual form. -/
abbrev Pairs := Option (List (String × String))

namespace Pairs

def append (first second : Pairs) : Pairs := do return (← first) ++ (← second)

instance : Append Pairs := ⟨append⟩

end Pairs

namespace Query

/-- A segment that needs no encoding in a path. -/
def isPathSafe (s : String) : Bool :=
  !s.isEmpty && s.all fun c => c.isAlphanum || c == '-' || c == '_' || c == '.' || c == '~'

/-- A name that may stand in a key. -/
def isKeySafe (s : String) : Bool :=
  !s.isEmpty && s.toList.head? != some '-' && s.all Names.isNameChar

/-- A field that a clause may name. -/
def isFieldPath (s : String) : Bool :=
  !s.isEmpty && s.all fun c => c.isAlphanum || c == '_' || c == '-' || c == '.'

/-- One pair for each item of a list, else one for the scalar. -/
def writeValues (key : String) : Value → Pairs
  | .arr xs => xs.mapM fun x => (Scalar.write? x).map (key, ·)
  | v => (Scalar.write? v).map fun s => [(key, s)]

mutual
/-- The pairs of a map of maps, each key written after the keys that lead to it. -/
def writeEntries (stem : String) (sep : String) : List (String × Value) → Pairs
  | [] => some []
  | (key, v) :: es =>
    if isKeySafe key then writeEntry (stem ++ sep ++ key) sep v ++ writeEntries stem sep es else none

def writeEntry (key : String) (sep : String) : Value → Pairs
  | .obj [] => none
  | .obj es => writeEntries key sep es
  | v => writeValues key v
end

/-- The pairs of a map that has entries. -/
def writeMap (stem : String) (sep : String) (es : Entries Value) : Pairs :=
  if es.isEmpty then none else writeEntries stem sep es

/-! Predicates -/

/-- A comparison of a field with a value, as a parameter can write it. -/
structure Comparison where
  field : String
  op : String
  value : Value

def Comparison.ofPredicate? : Value → Option Comparison
  | .obj [(op, .arr [.str field, value])] =>
    if WhereParam.reservedTags.contains op || !isFieldPath field then none
    else some ⟨field, op, value⟩
  | _ => none

/-- The tag of the clause at a position. -/
def clauseTag (index : Nat) : String := "t" ++ index.repr

mutual
/-- The tree over tags that a predicate is, and its clauses; `index` is the first free tag. -/
def algebraOf (index : Nat) : Value → Option (Algebra.Tree × List Comparison)
  | .obj [(op, args)] =>
    match Comparison.ofPredicate? (.obj [(op, args)]) with
    | some clause => some (.symbol (clauseTag index), [clause])
    | none =>
      match op, args with
      | "not", v => (algebraOf index v).map fun (t, clauses) => (.not t, clauses)
      | "and", .arr (x :: y :: rest) =>
        (algebraOfAll index (x :: y :: rest)).map fun (ts, clauses) => (.and ts, clauses)
      | "or", .arr (x :: y :: rest) =>
        (algebraOfAll index (x :: y :: rest)).map fun (ts, clauses) => (.or ts, clauses)
      | _, _ => none
  | _ => none

def algebraOfAll (index : Nat) : List Value → Option (List Algebra.Tree × List Comparison)
  | [] => some ([], [])
  | x :: xs => do
    let (t, clauses) ← algebraOf index x
    let (ts, more) ← algebraOfAll (index + clauses.length) xs
    return (t :: ts, clauses ++ more)
end

/-- The clauses under their tags. -/
def writeClauses (key : String) (index : Nat) : List Comparison → Pairs
  | [] => some []
  | c :: cs =>
    writeValues (key ++ ":" ++ c.field ++ ":" ++ c.op ++ ":" ++ clauseTag index) c.value ++
      writeClauses key (index + 1) cs

/-- The pairs of a predicate: one clause, or an algebra and its clauses. -/
def writeFilter (key : String) (predicate : Value) : Pairs :=
  match Comparison.ofPredicate? predicate with
  | some c => writeValues (key ++ ":" ++ c.field ++ ":" ++ c.op) c.value
  | none => do
    let (tree, clauses) ← algebraOf 0 predicate
    some [(key, tree.text)] ++ writeClauses key 0 clauses

/-! Levels -/

def writeSort (key : String) (keys : List String) : Pairs :=
  let plain (s : String) := String.ofList (s.toList.dropWhile (· == '-'))
  if keys.isEmpty || !keys.all fun k => isKeySafe (plain k) then none
  else some [(key, Text.join "," keys)]

def writePage (key : String) (page : Page) : List (String × String) :=
  (page.size.map fun n => (key ++ ":size", n.toNat.repr)).toList ++
    (page.after.map fun s => (key ++ ":after", s)).toList

/-- The pairs of a feature that may be absent. -/
def writeOption {α : Type} (f : α → Pairs) : Option α → Pairs
  | some a => f a
  | none => some []

/-- The pair of the names that a level takes and leaves out. -/
def writeFlags (key : String) (flags : List String) : List (String × String) :=
  if flags.isEmpty then [] else [(key, Text.join "," flags)]

mutual
/-- The leveled features of a state, those of its nested states first. `suffix` names the level. -/
def writeLevel (suffix : String) : Query → Pairs
  | ⟨_, _, _, _, _, _, take, filter, sort, page, group⟩ =>
    (match take with
      | some ts =>
        (writeTakes suffix ts).map fun (pairs, flags) => pairs ++ writeFlags ("take" ++ suffix) flags
      | none => some []) ++
    writeOption (writeSort ("sort" ++ suffix)) sort ++
    writeOption (fun p => some (writePage ("page" ++ suffix) p)) page ++
    writeOption (writeMap ("group" ++ suffix) ":") group ++
    writeOption (writeFilter ("where" ++ suffix)) filter

/-- The pairs of the nested states, and the flags. -/
def writeTakes (suffix : String) : List (String × Take) → Option (List (String × String) × List String)
  | [] => some ([], [])
  | (name, t) :: ts =>
    if isKeySafe name then do
      let (pairs, flags) ← writeTake suffix name t
      let (morePairs, moreFlags) ← writeTakes suffix ts
      return (pairs ++ morePairs, flags ++ moreFlags)
    else none

def writeTake (suffix name : String) : Take → Option (List (String × String) × List String)
  | .flag true => some ([], [name])
  | .flag false => some ([], ["-" ++ name])
  | .nested state => (writeLevel (suffix ++ "." ++ name) state).map fun pairs => (pairs, [])
end

/-- The targets as path segments while they follow one another, then as parameters. -/
def writeTargets : Bool → List (String × Option String) → List String × List (String × String)
  | _, [] => ([], [])
  | contiguous, (name, value) :: rest =>
    match value with
    | some v =>
      if contiguous && isPathSafe v then
        let (path, pairs) := writeTargets true rest
        (v :: path, pairs)
      else
        let (path, pairs) := writeTargets false rest
        (path, (name, v) :: pairs)
    | none => writeTargets false rest

/-- The path and the parameters of a state, if it has a textual form. -/
def render (q : Query) : Option String := do
  let (path, targets) := writeTargets true
    [("space", q.space), ("resource", q.resource), ("record", q.record), ("field", q.field)]
  let action := (q.action.map fun a => ("action", a.name)).toList
  let pairs ← some (targets ++ action) ++ writeOption (writeMap "inspect" ".") q.inspect ++
    writeLevel "" q
  let path := "/" ++ Text.join "/" path
  return if pairs.isEmpty then path else path ++ "?" ++ String.ofList (Text.Form.encode pairs)

/-- The querystring of a state. -/
def toQuerystring (q : Query) : String :=
  let blob := "?query=" ++ q.encodeState
  match q.render with
  | none => blob
  | some text =>
    match parse text with
    | .ok state => if state.same q then text else blob
    | .error _ => blob

end Query
end RecordGraph
