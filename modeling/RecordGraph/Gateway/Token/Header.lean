import RecordGraph.Gateway.Token.Key

/-!
Headers of tokens. A header names the algorithm that its token is signed with; all else in it is read
only to be checked.
-/
namespace RecordGraph.Token
open Value

/-- The algorithms that a token may be signed with. -/
def algorithms : List String :=
  ["HS256", "HS384", "HS512", "ES256", "ES384", "RS256", "RS384", "RS512", "PS256", "PS384", "PS512",
    "EdDSA"]

/-- A field of a header that is read for its shape alone, and may be null. -/
def checked {α : Type} (name : String) (read : List Char → Reading α) : Member String where
  name := name
  read alg cs := (readOptional read cs).map fun (_, r) => (alg, r)
  neededInMap := false
  neededInList := true

def algorithmField : Member String where
  name := "alg"
  read _ cs := readName algorithms cs
  neededInMap := true
  neededInList := true

def headerShape : Shape String where
  name := "Header"
  fields :=
    [checked "typ" readTextValue, algorithmField, checked "cty" readTextValue,
      checked "jku" readTextValue, checked "jwk" (readKey (maxDepth - 1)),
      checked "kid" readTextValue, checked "x5u" readTextValue, checked "x5c" readTexts,
      checked "x5t" readTextValue, checked "x5t#S256" readTextValue]

/-- The algorithm that a header names. -/
def headerAlgorithm (bytes : List UInt8) : Except Fault String :=
  readWhole (headerShape.read "") bytes

end RecordGraph.Token
