/-!
Base64 in two alphabets. Written form: the URL-safe alphabet without padding. Read form: that, or the
standard alphabet with its padding. Unused bits at the end have to be zero.
-/
namespace RecordGraph.Text.Base64

/-- The two alphabets differ in their last two characters. -/
structure Alphabet where
  char62 : Char
  char63 : Char

def urlSafe : Alphabet := ⟨'-', '_'⟩

def standard : Alphabet := ⟨'+', '/'⟩

def Alphabet.char (a : Alphabet) (n : Nat) : Char :=
  if n < 26 then Char.ofNat (65 + n)
  else if n < 52 then Char.ofNat (71 + n)
  else if n < 62 then Char.ofNat (n - 4)
  else if n = 62 then a.char62
  else a.char63

def Alphabet.value? (a : Alphabet) (c : Char) : Option Nat :=
  if c.isUpper then some (c.toNat - 65)
  else if c.isLower then some (c.toNat - 71)
  else if c.isDigit then some (c.toNat + 4)
  else if c = a.char62 then some 62
  else if c = a.char63 then some 63
  else none

/-- The six-bit groups of bytes, the last one filled up with zeros. -/
def sextets : List UInt8 → List Nat
  | [] => []
  | [a] => [a.toNat / 4, a.toNat % 4 * 16]
  | [a, b] => [a.toNat / 4, a.toNat % 4 * 16 + b.toNat / 16, b.toNat % 16 * 4]
  | a :: b :: c :: bs =>
    a.toNat / 4 :: (a.toNat % 4 * 16 + b.toNat / 16) :: (b.toNat % 16 * 4 + c.toNat / 64) ::
      c.toNat % 64 :: sextets bs

/-- The bytes of six-bit groups, none where bits are missing or left over. -/
def ofSextets : List Nat → Option (List UInt8)
  | [] => some []
  | [_] => none
  | [a, b] => if b % 16 = 0 then some [UInt8.ofNat (a * 4 + b / 16)] else none
  | [a, b, c] =>
    if c % 4 = 0 then
      some [UInt8.ofNat (a * 4 + b / 16), UInt8.ofNat (b % 16 * 16 + c / 4)]
    else none
  | a :: b :: c :: d :: rest =>
    (ofSextets rest).map fun bs =>
      UInt8.ofNat (a * 4 + b / 16) :: UInt8.ofNat (b % 16 * 16 + c / 4) ::
        UInt8.ofNat (c % 4 * 64 + d) :: bs

def encode (bytes : List UInt8) : String := String.ofList ((sextets bytes).map urlSafe.char)

def decodeChars (a : Alphabet) (cs : List Char) : Option (List UInt8) :=
  (cs.mapM a.value?).bind ofSextets

/-- Why a text is not the unpadded form of any bytes. -/
inductive Fault where
  | symbol (code offset : Nat)
  | length (n : Nat)
  | lastSymbol (code offset : Nat)
  | padding
deriving DecidableEq

def Fault.message : Fault → String
  | symbol code offset => "Invalid symbol " ++ toString code ++ ", offset " ++ toString offset ++ "."
  | length n => "Invalid input length: " ++ toString n
  | lastSymbol code offset =>
    "Invalid last symbol " ++ toString code ++ ", offset " ++ toString offset ++ "."
  | padding => "Invalid padding"

/-- How many characters at the end are padding: those behind the first two of the last group. -/
def paddingLength (cs : List Char) : Nat :=
  let group := (cs.length + 3) % 4 + 1
  min (cs.reverse.takeWhile (· == '=')).length (group - 2)

/-- What is wrong with a text that does not decode. A foreign character is told before anything else,
and the last one before all others where it stands alone in its group. -/
def diagnose (a : Alphabet) (cs : List Char) : Fault :=
  let foreign (c : Char) : Bool := (a.value? c).isNone
  let last := cs.getLastD '='
  let padding := paddingLength cs
  let body := cs.take (cs.length - padding)
  if cs.length % 4 = 1 && last != '=' && foreign last then .symbol last.toNat (cs.length - 1)
  else
    match body.dropWhile fun c => !foreign c with
    | c :: r => .symbol c.toNat (body.length - r.length - 1)
    | [] =>
      if cs.length % 4 = 1 then .length cs.length
      else if padding > 0 then .padding
      else .lastSymbol last.toNat (cs.length - 1)

/-- Read the URL-safe form, or tell what is wrong with it. -/
def decodeUnpadded (s : String) : Except Fault (List UInt8) :=
  match decodeChars urlSafe s.toList with
  | some bytes => .ok bytes
  | none => .error (diagnose urlSafe s.toList)

/-- The characters before the padding, where the padding fills the last group of four. -/
def unpadded (cs : List Char) : Option (List Char) :=
  let padding := (cs.reverse.takeWhile (· == '=')).length
  if cs.length % 4 = 0 && padding ≤ 2 then some (cs.take (cs.length - padding)) else none

/-- Read the URL-safe form, and failing that the standard one. -/
def decode (s : String) : Option (List UInt8) :=
  (decodeChars urlSafe s.toList).or ((unpadded s.toList).bind (decodeChars standard))

end RecordGraph.Text.Base64
