import RecordGraph.Double.Parts
import RecordGraph.Text.Utf8
import RecordGraph.Value.Fault

/-!
The parts that texts of values are made of. A reader takes the text from where it is to read, as
octets, and gives what it read with what is left, or where it stopped. Digits that a 64-bit significand
cannot take are dropped.
-/
namespace RecordGraph

/-- What was read and what is left, or why and where reading stopped. -/
abbrev Reading (α : Type) := Except Value.Stop (α × List Char)

namespace Value
variable {α : Type}

/-- Stop behind what has been read. -/
def stopAt (cause : Cause) (rest : List Char) : Except Stop α := .error ⟨cause, rest⟩

/-- Stop at the next octet, which is at fault; at the end of the text if there is none. -/
def stopOn (cause : Cause) (rest : List Char) : Except Stop α := .error ⟨cause, rest.tail⟩

def isSpace (c : Char) : Bool := c == ' ' || c == '\n' || c == '\t' || c == '\r'

def skipSpace (cs : List Char) : List Char := cs.dropWhile isSpace

/-- Read the rest of a word. -/
def readWord : List Char → List Char → Except Stop (List Char)
  | [], cs => .ok cs
  | _ :: _, [] => stopAt .endOfValue []
  | w :: ws, c :: cs => if c = w then readWord ws cs else stopAt .word cs

/-- Go to the next item of a list and tell whether there is one. -/
def nextItem (first : Bool) (cs : List Char) : Reading Bool :=
  match skipSpace cs with
  | [] => stopOn .endOfList []
  | ']' :: r => .ok (false, ']' :: r)
  | c :: r =>
    if first then .ok (true, c :: r)
    else if c = ',' then
      match skipSpace r with
      | [] => stopOn .endOfValue []
      | ']' :: r => stopOn .trailingComma (']' :: r)
      | r => .ok (true, r)
    else stopOn .listSeparator (c :: r)

/-- Go to the next key of a map, behind its quote, and tell whether there is one. -/
def nextKey (first : Bool) (cs : List Char) : Reading Bool :=
  match skipSpace cs with
  | [] => stopOn .endOfMap []
  | '\x7d' :: r => .ok (false, '\x7d' :: r)
  | c :: r =>
    if first then
      if c = '"' then .ok (true, r) else stopOn .key (c :: r)
    else if c = ',' then
      match skipSpace r with
      | [] => stopOn .endOfValue []
      | '\x7d' :: r => stopOn .trailingComma ('\x7d' :: r)
      | '"' :: r => .ok (true, r)
      | r => stopOn .key r
    else stopOn .mapSeparator (c :: r)

/-- Read the colon behind a key. -/
def readColon (cs : List Char) : Except Stop (List Char) :=
  match skipSpace cs with
  | [] => stopOn .endOfMap []
  | ':' :: r => .ok r
  | r => stopOn .colon r

end Value

namespace Number
open Value

def startsWithDigit : List Char → Bool
  | c :: _ => c.isDigit
  | [] => false

def digitValue (c : Char) : Nat := c.toNat - 48

/-- Take digits into the significand while 64 bits hold it. -/
def takeDigits (significand : Nat) : List Char → Nat × List Char
  | [] => (significand, [])
  | c :: cs =>
    if c.isDigit && significand * 10 + digitValue c < UInt64.size then
      takeDigits (significand * 10 + digitValue c) cs
    else (significand, c :: cs)

/-- Take the digits of an exponent, up to the one with which it exceeds 31 bits. -/
def takeExponent (exponent : Nat) : List Char → Nat × List Char
  | [] => (exponent, [])
  | c :: cs =>
    if c.isDigit && exponent < 0x80000000 then takeExponent (exponent * 10 + digitValue c) cs
    else (exponent, c :: cs)

/-- The number with what is left behind it, if it is in range. -/
def ranged (rest : List Char) : Option Double → Reading Number
  | some d => .ok (.double d, rest)
  | none => stopAt .range rest

/-- A double from its parts, with what is left behind it. -/
def scaled (negative : Bool) (significand : Nat) (exponent : Int) (rest : List Char) :
    Reading Number :=
  ranged rest (Double.ofParts negative significand exponent)

/-- Read what follows the mark of an exponent. -/
def readExponent (negative : Bool) (significand : Nat) (exponent : Int) (cs : List Char) :
    Reading Number :=
  let (down, cs) := match cs with
    | '+' :: r => (false, r)
    | '-' :: r => (true, r)
    | r => (false, r)
  match cs with
  | [] => stopAt .endOfValue []
  | c :: r =>
    if !c.isDigit then stopAt .number r
    else
      let (e, r) := takeExponent 0 (c :: r)
      if e < 0x80000000 then
        scaled negative significand (if down then exponent - e else exponent + e) r
      else if down || significand = 0 then
        .ok (.double (if negative then .negZero else .zero), r.dropWhile Char.isDigit)
      else stopAt .range r

def readScale (negative : Bool) (significand : Nat) (exponent : Int) : List Char → Reading Number
  | 'e' :: cs => readExponent negative significand exponent cs
  | 'E' :: cs => readExponent negative significand exponent cs
  | cs => scaled negative significand exponent cs

/-- Read what follows the point. -/
def readFraction (negative : Bool) (significand : Nat) (exponent : Int) (cs : List Char) :
    Reading Number :=
  if startsWithDigit cs then
    let (full, rest) := takeDigits significand cs
    let taken := cs.length - rest.length
    readScale negative full (exponent - taken) (rest.dropWhile Char.isDigit)
  else stopOn (if cs.isEmpty then .endOfValue else .number) cs

/-- A whole number: the double `-0.0` for a negative zero, a double where 64 bits do not hold it. -/
def whole (negative : Bool) (n : Nat) : Option Number :=
  if negative then
    if n = 0 then some (.double Double.negZero) else ofInt? (-(n : Int))
  else ofInt? (n : Int)

/-- Read what follows the whole part, of which the significand lacks the last `dropped` digits. -/
def readTail (negative : Bool) (significand dropped : Nat) : List Char → Reading Number
  | '.' :: r => readFraction negative significand dropped r
  | 'e' :: r => readExponent negative significand dropped r
  | 'E' :: r => readExponent negative significand dropped r
  | r =>
    if dropped = 0 then
      match whole negative significand with
      | some n => .ok (n, r)
      | none => stopAt .range r
    else scaled negative significand dropped r

/-- Read a number behind its sign. No digit follows a leading zero. -/
def readUnsigned (negative : Bool) : List Char → Reading Number
  | [] => stopAt .endOfValue []
  | '0' :: r => if startsWithDigit r then stopOn .number r else readTail negative 0 0 r
  | c :: r =>
    if c.isDigit then
      let (significand, rest) := takeDigits 0 (c :: r)
      readTail negative significand (rest.takeWhile Char.isDigit).length
        (rest.dropWhile Char.isDigit)
    else stopAt .number r

def read : List Char → Reading Number
  | '-' :: cs => readUnsigned true cs
  | cs => readUnsigned false cs

end Number

namespace Value

def hexValue (c : Char) : Option Nat :=
  if c.isDigit then some (c.toNat - 48)
  else if 'a' ≤ c && c ≤ 'f' then some (c.toNat - 87)
  else if 'A' ≤ c && c ≤ 'F' then some (c.toNat - 55)
  else none

def hexUnit (a b c d : Char) : Option Nat := do
  let a ← hexValue a
  let b ← hexValue b
  let c ← hexValue c
  let d ← hexValue d
  return ((a * 16 + b) * 16 + c) * 16 + d

def isLead (n : Nat) : Bool := 0xD800 ≤ n && n < 0xDC00
def isTrail (n : Nat) : Bool := 0xDC00 ≤ n && n < 0xE000

def simpleEscape : Char → Option Char
  | '"' => some '"'
  | '\\' => some '\\'
  | '/' => some '/'
  | 'b' => some (Char.ofNat 8)
  | 'f' => some (Char.ofNat 12)
  | 'n' => some '\n'
  | 'r' => some '\r'
  | 't' => some '\t'
  | _ => none

/-- The octets of a character. -/
def charOctets (c : Char) : List Char := Text.Utf8.octets (Text.Utf8.encodeChar c)

/-- Where reading stops behind an escaped first half that no whole escape follows. -/
def halfPair : List Char → Stop
  | [] => ⟨.endOfString, []⟩
  | ['\\'] => ⟨.endOfString, []⟩
  | '\\' :: 'u' :: _ => ⟨.endOfString, []⟩
  | '\\' :: _ :: r => ⟨.missingHalf, r⟩
  | _ :: r => ⟨.missingHalf, r⟩

/-- Read the octets up to the closing quote. Escaped units above the basic plane come in pairs. -/
def readString : List Char → Reading (List Char)
  | [] => stopAt .endOfString []
  | '"' :: cs => .ok ([], cs)
  | '\\' :: 'u' :: a :: b :: c :: d :: '\\' :: 'u' :: e :: f :: g :: h :: cs =>
    match hexUnit a b c d with
    | none => stopAt .escape ('\\' :: 'u' :: e :: f :: g :: h :: cs)
    | some n =>
      if isTrail n then stopAt .loneHalf ('\\' :: 'u' :: e :: f :: g :: h :: cs)
      else if isLead n then
        match hexUnit e f g h with
        | none => stopAt .escape cs
        | some m =>
          if isTrail m then
            (readString cs).map fun (s, r) =>
              (charOctets (Char.ofNat (0x10000 + (n - 0xD800) * 0x400 + (m - 0xDC00))) ++ s, r)
          else stopAt .loneHalf cs
      else
        (readString ('\\' :: 'u' :: e :: f :: g :: h :: cs)).map fun (s, r) =>
          (charOctets (Char.ofNat n) ++ s, r)
  | '\\' :: 'u' :: a :: b :: c :: d :: cs =>
    match hexUnit a b c d with
    | none => stopAt .escape cs
    | some n =>
      if isTrail n then stopAt .loneHalf cs
      else if isLead n then .error (halfPair cs)
      else (readString cs).map fun (s, r) => (charOctets (Char.ofNat n) ++ s, r)
  | '\\' :: 'u' :: _ => stopAt .endOfString []
  | ['\\'] => stopAt .endOfString []
  | '\\' :: c :: cs =>
    match simpleEscape c with
    | none => stopAt .escape cs
    | some x => (readString cs).map fun (s, r) => (x :: s, r)
  | c :: cs =>
    if c.toNat < 32 then stopAt .control cs
    else (readString cs).map fun (s, r) => (c :: s, r)

/-- Stop at the first ill-formed octet of a text that starts at `cs` and leaves `rest`. It is as far from
the end of the text as in the octets that were read, in which an escape counts as what it stands for. -/
def stopIllFormed (octets : List UInt8) (cs rest : List Char) : Except Stop α :=
  stopAt .illFormed
    (cs.drop (cs.length - rest.length - (Text.Utf8.illFormedRest octets).length))

/-- Read a text behind its quote; its octets have to be well formed. -/
def readText (cs : List Char) : Reading String :=
  (readString cs).bind fun (s, r) =>
    let octets := Text.Utf8.ofOctets s
    match Text.Utf8.decode octets with
    | some s => .ok (s, r)
    | none => stopIllFormed octets cs r

end Value
end RecordGraph
