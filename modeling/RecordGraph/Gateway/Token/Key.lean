import RecordGraph.Value.Fields
import RecordGraph.Value.Shape

/-!
Keys that the header of a token may carry. They are not used, but a header with a key that is no key
is refused. A key has some fields of any key and the fields of one family of keys.
-/
namespace RecordGraph.Token
open Value

/-- What is wrong with a value of a shape, if anything is. -/
abbrev Check := Value → Except Mismatch Unit

def isText : Check
  | .str _ => .ok ()
  | v => .error (.kind (.ofValue v) "a string")

def isTexts : Check
  | .arr xs => xs.forM isText
  | v => .error (.kind (.ofValue v) "a sequence")

/-- The algorithms that a key may be meant for. -/
def keyAlgorithms : List String :=
  ["HS256", "HS384", "HS512", "ES256", "ES384", "RS256", "RS384", "RS512", "PS256", "PS384", "PS512",
    "EdDSA", "RSA1_5", "RSA-OAEP", "RSA-OAEP-256"]

def isKeyAlgorithm (name : String) : Except Mismatch Unit :=
  if name ∈ keyAlgorithms then .ok () else .error (.unknownName name keyAlgorithms)

/-- The name of an algorithm, as a text or as the one key of a map whose value is empty. -/
def isAlgorithm : Check
  | .str name => isKeyAlgorithm name
  | .obj [(name, v)] =>
    (isKeyAlgorithm name).bind fun _ =>
      match v with
      | .null => .ok ()
      | .obj [] => .ok ()
      | v => .error (.kind (.ofValue v) "unit")
  | .obj _ => .error .severalKeys
  | v => .error (.kind (.ofValue v) "string or map")

/-- The fields of any key. Each may be left out or null. -/
def keyFields : List (String × Check) :=
  [("use", isText), ("key_ops", isTexts), ("alg", isAlgorithm), ("kid", isText), ("x5u", isText),
    ("x5c", isTexts), ("x5t", isText), ("x5t#S256", isText)]

/-- Check the fields of any key among entries as written; `seen` have been met before. -/
def checkKeyFields (seen : List String) : List (String × Value) → Except Mismatch Unit
  | [] => .ok ()
  | (name, v) :: es =>
    match keyFields.lookup name with
    | none => checkKeyFields seen es
    | some check =>
      if name ∈ seen then .error (.repeatedField name)
      else (if v.isNull then .ok () else check v).bind fun _ => checkKeyFields (name :: seen) es

/-- Whether a value is one of the names, as a text or as the one key of a map whose value is null. -/
def isOneOf (names : List String) : Value → Bool
  | .str s => s ∈ names
  | .obj [(s, .null)] => s ∈ names
  | _ => false

def isString (v : Value) : Bool := v.str?.isSome

def curves : List String := ["P-256", "P-384", "P-521", "Ed25519"]

/-- The families of keys, each with the fields that its keys have. -/
def keyFamilies : List (List (String × (Value → Bool))) :=
  [[("kty", isOneOf ["EC"]), ("crv", isOneOf curves), ("x", isString), ("y", isString)],
    [("kty", isOneOf ["RSA"]), ("n", isString), ("e", isString)],
    [("kty", isOneOf ["oct"]), ("k", isString)],
    [("kty", isOneOf ["OKP"]), ("crv", isOneOf curves), ("x", isString)]]

/-- Check the entries of a key as written. -/
def checkKey (es : List (String × Value)) : Except Mismatch Unit :=
  (checkKeyFields [] es).bind fun _ =>
    let belongs := keyFamilies.any fun family =>
      family.all fun (name, isOf) => ((only? es name).map isOf).getD false
    if belongs then .ok () else .error (.noAlternative "AlgorithmParameters")

/-- Read a key; `depth` containers may still be opened. -/
def readKey (depth : Nat) (cs : List Char) : Reading Unit :=
  match skipSpace cs with
  | '\x7b' :: r =>
    (readEntries (2 * r.length + 1) (depth - 1) true r).bind fun (es, r) =>
      match checkKey es with
      | .ok () => .ok ((), r)
      | .error m => stopAt (.mismatch m) r
  | r => refuse "struct Jwk" r

end RecordGraph.Token
