import RecordGraph.Value.Shape

/-!
Registered claims: when a token expires and whom it is for. A claim of the wrong kind counts as not
given. A container in the place of a time or of a subject is not passed over, so that reading stops
within it, unless it is an empty one in the place of a time.
-/
namespace RecordGraph.Token
open Value

/-- What the registered claims of a token say: its expiry in seconds, and whether it names its
audience. -/
structure Claims where
  expiry : Option Nat := none
  addressed : Bool := false

/-- A time in whole seconds; a fraction is rounded, half a second up. -/
def seconds? : Value → Option Nat
  | .num (.int i _) => if 0 ≤ i then some i.natAbs else none
  | .num (.double d) =>
    if (d.negative && !d.isZero) || UInt64.size * Double.unitsPerOne ≤ d.units then none
    else some ((2 * d.units + Double.unitsPerOne) / (2 * Double.unitsPerOne))
  | _ => none

/-- Whether a claim names an audience: by a text or by a list of texts. -/
def isAudience : Value → Bool
  | .str _ => true
  | .arr names => names.all fun name => name.str?.isSome
  | _ => false

/-- Read a claim of any kind. -/
def readClaim (cs : List Char) : Reading Value :=
  readValue (2 * cs.length + 1) (maxDepth - 1) cs

/-- Read a time. -/
def readTime (cs : List Char) : Reading (Option Nat) :=
  match skipSpace cs with
  | '[' :: r => .ok (none, behind ']' r)
  | '\x7b' :: r => .ok (none, behind '\x7d' r)
  | r => (readClaim r).map fun (v, r) => (seconds? v, r)

/-- Read a subject. -/
def readSubject (cs : List Char) : Reading Unit :=
  match skipSpace cs with
  | '[' :: r => .ok ((), '[' :: r)
  | '\x7b' :: r => .ok ((), '\x7b' :: r)
  | r => (readClaim r).map fun (_, r) => ((), r)

/-- A claim that is read with `read` and adds to the claims what `add` says. -/
def claim {α : Type} (name : String) (neededInList : Bool) (read : List Char → Reading α)
    (add : Claims → α → Claims) : Member Claims where
  name := name
  read claims cs := (read cs).map fun (a, r) => (add claims a, r)
  neededInMap := false
  neededInList := neededInList

def claimsShape : Shape Claims where
  name := "ClaimsForValidation"
  fields :=
    [claim "exp" false readTime fun claims time => { claims with expiry := time },
      claim "nbf" false readTime fun claims _ => claims,
      claim "sub" true readSubject fun claims _ => claims,
      claim "iss" true readClaim fun claims _ => claims,
      claim "aud" true readClaim fun claims v => { claims with addressed := isAudience v }]

/-- The registered claims of a token. -/
def readClaims (bytes : List UInt8) : Except Fault Claims :=
  readWhole (claimsShape.read {}) bytes

end RecordGraph.Token
