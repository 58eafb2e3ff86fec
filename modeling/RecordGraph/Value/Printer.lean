import RecordGraph.Double.Decimal
import RecordGraph.Value.Basic

/-!
The compact text of a value. Entries are written in the order the value holds them; inside strings
only the quote, the backslash and the control characters are escaped.
-/
namespace RecordGraph

def Number.chars : Number → List Char
  | .int i _ => (if i < 0 then ['-'] else []) ++ Nat.toDigits 10 i.natAbs
  | .double d => d.chars

def Number.text (n : Number) : String := String.ofList n.chars

namespace Value

def hexDigit (n : Nat) : Char := (Nat.toDigits 16 n).headD '0'

/-- A character as it stands inside quotes. -/
def escaped (c : Char) : List Char :=
  if c = '"' then ['\\', '"']
  else if c = '\\' then ['\\', '\\']
  else if c = '\n' then ['\\', 'n']
  else if c = '\r' then ['\\', 'r']
  else if c = '\t' then ['\\', 't']
  else if c.toNat = 8 then ['\\', 'b']
  else if c.toNat = 12 then ['\\', 'f']
  else if c.toNat < 32 then
    ['\\', 'u', '0', '0', hexDigit (c.toNat / 16), hexDigit (c.toNat % 16)]
  else [c]

/-- Text between quotes. -/
def quotedChars (s : String) : List Char := '"' :: (s.toList.flatMap escaped ++ ['"'])

mutual
def chars : Value → List Char
  | .null => ['n', 'u', 'l', 'l']
  | .bool true => ['t', 'r', 'u', 'e']
  | .bool false => ['f', 'a', 'l', 's', 'e']
  | .num n => n.chars
  | .str s => quotedChars s
  | .arr xs => '[' :: itemsChars xs
  | .obj es => '\x7b' :: entriesChars es

/-- The items and the closing bracket. -/
def itemsChars : List Value → List Char
  | [] => [']']
  | [x] => chars x ++ [']']
  | x :: xs => chars x ++ ',' :: itemsChars xs

/-- The entries and the closing brace. -/
def entriesChars : List (String × Value) → List Char
  | [] => ['\x7d']
  | [(k, v)] => quotedChars k ++ ':' :: chars v ++ ['\x7d']
  | (k, v) :: es => quotedChars k ++ ':' :: chars v ++ ',' :: entriesChars es
end

def text (v : Value) : String := String.ofList v.chars

end Value
end RecordGraph
