import RecordGraph.Digest.Hmac
import RecordGraph.Gateway.Token.Claims
import RecordGraph.Gateway.Token.Header
import RecordGraph.Text.Base64

/-!
Bearer tokens: claims signed with a secret, in three parts between dots. A token is accepted when its
header names the one algorithm in use, its signature is the one that the secret gives, and its claims
have not expired. What is checked first wins when several things are wrong.
-/
namespace RecordGraph

/-- Why a token is not accepted. -/
inductive TokenFault where
  | malformed
  | encoding (fault : Text.Base64.Fault)
  | content (fault : Value.Fault)
  | algorithm
  | signature
  | noExpiry
  | expired
  | audience
deriving DecidableEq

def TokenFault.message : TokenFault → String
  | malformed => "InvalidToken"
  | encoding fault => "Base64 error: " ++ fault.message
  | content fault => "JSON error: " ++ fault.message
  | algorithm => "InvalidAlgorithm"
  | signature => "InvalidSignature"
  | noExpiry => "Missing required claim: exp"
  | expired => "ExpiredSignature"
  | audience => "InvalidAudience"

namespace Bearer

/-- The characters of a header value that is text: printable ASCII and tabs. -/
def isHeaderChar (c : Char) : Bool := c == '\t' || (32 ≤ c.toNat && c.toNat ≤ 126)

/-- The token of an authorization header: after its scheme, in any case, and a space. -/
def token? (header : String) : Option String :=
  let cs := header.toList
  if (cs.take 6).map Char.toLower == "bearer".toList && (cs.drop 6).head? == some ' ' &&
      cs.all isHeaderChar then
    some (String.ofList ((cs.drop 7).dropWhile fun c => c == ' ' || c == '\t'))
  else none

/-- The bytes of a part of a token. -/
def decodePart (part : String) : Except TokenFault (List UInt8) :=
  (Text.Base64.decodeUnpadded part).mapError .encoding

/-- How many seconds a token is accepted beyond its expiry, for clocks that differ. -/
def leeway : Nat := 60

/-- Claims that hold at the time `now` expire, but have not yet, and are for anyone. -/
def checkClaims (now : Nat) (claims : Token.Claims) : Except TokenFault Unit :=
  match claims.expiry with
  | none => .error .noExpiry
  | some expiry =>
    if expiry + leeway < now then .error .expired
    else if claims.addressed then .error .audience
    else .ok ()

/-- The signature of the signed parts of a token. -/
def sign (secret message : String) : String :=
  Text.Base64.encode (Hmac.code (Text.Utf8.encode secret) (Text.Utf8.encode message))

/-- The claims of the second part of a token, if they hold at the time `now`. -/
def readPayload (now : Nat) (payload : String) : Except TokenFault Value := do
  let bytes ← decodePart payload
  let value ← (Value.readBytes bytes).mapError .content
  let claims ← (Token.readClaims bytes).mapError .content
  checkClaims now claims
  return value

/-- The claims of a token that is signed with the secret and holds at the time `now`. -/
def verify (secret : String) (now : Nat) (token : String) : Except TokenFault Value :=
  match Text.splitLast? '.' token with
  | none => .error .malformed
  | some (message, signature) =>
    match Text.splitLast? '.' message with
    | none => .error .malformed
    | some (header, payload) => do
      let bytes ← decodePart header
      let algorithm ← (Token.headerAlgorithm bytes).mapError .content
      if algorithm != "HS256" then throw .algorithm
      if signature != sign secret message then throw .signature
      readPayload now payload

end Bearer
end RecordGraph
