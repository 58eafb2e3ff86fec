import RecordGraph.Text.Utf8

/-!
Parameters as form-encoded text: pairs between ampersands, a space as a plus sign, bytes outside of a
small alphabet as a percent sign and two hexadecimal digits. Reading never fails: a percent sign that
begins no byte stands for itself, and ill-formed bytes become the replacement character.
-/
namespace RecordGraph.Text.Form

def hexDigit (n : Nat) : UInt8 := UInt8.ofNat (if n < 10 then 48 + n else 55 + n)

def hexValue (b : UInt8) : Option Nat :=
  let n := b.toNat
  if 48 ≤ n && n ≤ 57 then some (n - 48)
  else if 65 ≤ n && n ≤ 70 then some (n - 55)
  else if 97 ≤ n && n ≤ 102 then some (n - 87)
  else none

/-- Replace each percent sign and the two digits after it by the byte they name. -/
def percentDecode : List UInt8 → List UInt8
  | 37 :: a :: b :: bs =>
    match hexValue a, hexValue b with
    | some x, some y => UInt8.ofNat (x * 16 + y) :: percentDecode bs
    | _, _ => 37 :: percentDecode (a :: b :: bs)
  | b :: bs => b :: percentDecode bs
  | [] => []

/-- Letters, digits and the four marks that are written as they are. -/
def isPlain (b : UInt8) : Bool :=
  let n := b.toNat
  (48 ≤ n && n ≤ 57) || (65 ≤ n && n ≤ 90) || (97 ≤ n && n ≤ 122) ||
    n == 42 || n == 45 || n == 46 || n == 95

def encodeByte (b : UInt8) : List UInt8 :=
  if isPlain b then [b]
  else if b = 32 then [43]
  else [37, hexDigit (b.toNat / 16), hexDigit (b.toNat % 16)]

/-- The written form of one name or value; all of it is ASCII. -/
def encodeText (s : String) : List Char :=
  ((Utf8.encode s).flatMap encodeByte).map fun b => Char.ofNat b.toNat

/-- The text that the bytes of one name or value stand for. -/
def decodeBytes (bs : List UInt8) : String :=
  Utf8.decodeLossy (percentDecode (bs.map fun b => if b = 43 then 32 else b))

/-- Cut bytes at a separator. -/
def cutBytes (sep : UInt8) : List UInt8 → List (List UInt8)
  | [] => [[]]
  | b :: bs =>
    if b = sep then [] :: cutBytes sep bs
    else match cutBytes sep bs with
      | piece :: rest => (b :: piece) :: rest
      | [] => [[b]]

/-- The name and the value of a piece; a piece without an equals sign has an empty value. -/
def decodePair (bs : List UInt8) : String × String :=
  (decodeBytes (bs.takeWhile (· != 61)), decodeBytes ((bs.dropWhile (· != 61)).drop 1))

/-- The pairs of a text in order. -/
def decode (s : String) : List (String × String) :=
  ((cutBytes 38 (Utf8.encode s)).filter fun piece => !piece.isEmpty).map decodePair

def encodePair (p : String × String) : List Char := encodeText p.1 ++ '=' :: encodeText p.2

/-- The text of pairs, joined by ampersands. -/
def encode : List (String × String) → List Char
  | [] => []
  | [p] => encodePair p
  | p :: ps => encodePair p ++ '&' :: encode ps

end RecordGraph.Text.Form
