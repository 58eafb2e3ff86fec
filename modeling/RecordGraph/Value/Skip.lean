import RecordGraph.Value.Scan

/-!
Passing over values without reading them. What is passed over may be nested to any depth, may hold
numbers of any size, and its strings need not be well formed.
-/
namespace RecordGraph

namespace Number
open Value

def skipExponent (cs : List Char) : Except Stop (List Char) :=
  let cs := match cs with
    | '+' :: r => r
    | '-' :: r => r
    | r => r
  match cs with
  | [] => stopAt .number []
  | c :: r => if c.isDigit then .ok (r.dropWhile Char.isDigit) else stopAt .number r

def skipScale : List Char → Except Stop (List Char)
  | 'e' :: cs => skipExponent cs
  | 'E' :: cs => skipExponent cs
  | cs => .ok cs

def skipTail : List Char → Except Stop (List Char)
  | '.' :: r =>
    if startsWithDigit r then skipScale (r.dropWhile Char.isDigit) else stopOn .number r
  | r => skipScale r

def skipUnsigned : List Char → Except Stop (List Char)
  | [] => stopAt .number []
  | '0' :: r => if startsWithDigit r then stopOn .number r else skipTail r
  | c :: r => if c.isDigit then skipTail (r.dropWhile Char.isDigit) else stopAt .number r

def skip : List Char → Except Stop (List Char)
  | '-' :: cs => skipUnsigned cs
  | cs => skipUnsigned cs

end Number

namespace Value

/-- Pass over a string behind its quote. -/
def skipString : List Char → Except Stop (List Char)
  | [] => stopAt .endOfString []
  | '"' :: cs => .ok cs
  | '\\' :: 'u' :: a :: b :: c :: d :: cs =>
    if (hexUnit a b c d).isSome then skipString cs else stopAt .escape cs
  | '\\' :: 'u' :: _ => stopAt .endOfString []
  | ['\\'] => stopAt .endOfString []
  | '\\' :: c :: cs => if (simpleEscape c).isSome then skipString cs else stopAt .escape cs
  | c :: cs => if c.toNat < 32 then stopAt .control (c :: cs) else skipString cs

mutual
def skipValue : Nat → List Char → Except Stop (List Char)
  | 0, cs => stopAt .depth cs
  | fuel + 1, cs =>
    match skipSpace cs with
    | [] => stopOn .endOfValue []
    | 'n' :: r => readWord ['u', 'l', 'l'] r
    | 't' :: r => readWord ['r', 'u', 'e'] r
    | 'f' :: r => readWord ['a', 'l', 's', 'e'] r
    | '"' :: r => skipString r
    | '[' :: r =>
      match skipSpace r with
      | [] => stopOn .endOfList []
      | ']' :: r => .ok r
      | r => skipItems fuel r
    | '\x7b' :: r =>
      match skipSpace r with
      | '\x7d' :: r => .ok r
      | r => skipEntries fuel r
    | c :: r => if c = '-' || c.isDigit then Number.skip (c :: r) else stopOn .value (c :: r)

/-- Pass over one item or more, up to the closing bracket. -/
def skipItems : Nat → List Char → Except Stop (List Char)
  | 0, cs => stopAt .depth cs
  | fuel + 1, cs =>
    match skipValue fuel cs with
    | .error s => .error s
    | .ok r =>
      match skipSpace r with
      | [] => stopOn .endOfList []
      | ']' :: r => .ok r
      | ',' :: r => skipItems fuel r
      | r => stopOn .listSeparator r

/-- Pass over one entry or more, up to the closing brace. -/
def skipEntries : Nat → List Char → Except Stop (List Char)
  | 0, cs => stopAt .depth cs
  | fuel + 1, cs =>
    match skipSpace cs with
    | [] => stopOn .endOfMap []
    | '"' :: r =>
      match (skipString r).bind readColon with
      | .error s => .error s
      | .ok r =>
        match skipValue fuel r with
        | .error s => .error s
        | .ok r =>
          match skipSpace r with
          | [] => stopOn .endOfMap []
          | '\x7d' :: r => .ok r
          | ',' :: r => skipEntries fuel r
          | r => stopOn .mapSeparator r
    | r => stopOn .key r
end

/-- Pass over the value that comes next. -/
def skip (cs : List Char) : Except Stop (List Char) := skipValue (2 * cs.length + 1) cs

end Value
end RecordGraph
