import RecordGraph.Value.Scan

/-!
Reading the text of a value. Containers may be nested 127 deep.
-/
namespace RecordGraph.Value

/-- How many containers may be open at a time. -/
def maxDepth : Nat := 127

mutual
/-- Read one value; `depth` containers may still be opened. -/
def readValue : Nat → Nat → List Char → Reading Value
  | 0, _, cs => stopAt .depth cs
  | fuel + 1, depth, cs =>
    match skipSpace cs with
    | [] => stopOn .endOfValue []
    | 'n' :: r => (readWord ['u', 'l', 'l'] r).map (.null, ·)
    | 't' :: r => (readWord ['r', 'u', 'e'] r).map (.bool true, ·)
    | 'f' :: r => (readWord ['a', 'l', 's', 'e'] r).map (.bool false, ·)
    | '"' :: r => (readText r).map fun (s, r) => (.str s, r)
    | '[' :: r =>
      match depth with
      | 0 => stopOn .depth ('[' :: r)
      | depth + 1 => (readItems fuel depth true r).map fun (xs, r) => (.arr xs, r)
    | '\x7b' :: r =>
      match depth with
      | 0 => stopOn .depth ('\x7b' :: r)
      | depth + 1 => (readEntries fuel depth true r).map fun (es, r) => (.obj es, r)
    | c :: r =>
      if c = '-' || c.isDigit then (Number.read (c :: r)).map fun (n, r) => (.num n, r)
      else stopOn .value (c :: r)

/-- Read the items up to the closing bracket. -/
def readItems : Nat → Nat → Bool → List Char → Reading (List Value)
  | 0, _, _, cs => stopAt .depth cs
  | fuel + 1, depth, first, cs =>
    match nextItem first cs with
    | .error s => .error s
    | .ok (false, r) => .ok ([], r.tail)
    | .ok (true, r) =>
      match readValue fuel depth r with
      | .error s => .error s
      | .ok (x, r) => (readItems fuel depth false r).map fun (xs, r) => (x :: xs, r)

/-- Read the entries up to the closing brace, as written. -/
def readEntries : Nat → Nat → Bool → List Char → Reading (List (String × Value))
  | 0, _, _, cs => stopAt .depth cs
  | fuel + 1, depth, first, cs =>
    match nextKey first cs with
    | .error s => .error s
    | .ok (false, r) => .ok ([], r.tail)
    | .ok (true, r) =>
      match readText r with
      | .error s => .error s
      | .ok (k, r) =>
        match readColon r with
        | .error s => .error s
        | .ok r =>
          match readValue fuel depth r with
          | .error s => .error s
          | .ok (v, r) => (readEntries fuel depth false r).map fun (es, r) => ((k, v) :: es, r)
end

/-- Read a whole text, behind which only white space may follow. -/
def readWhole {α : Type} (read : List Char → Reading α) (bytes : List UInt8) : Except Fault α :=
  let cs := Text.Utf8.octets bytes
  match read cs with
  | .error s => .error (s.locate cs)
  | .ok (a, r) =>
    match skipSpace r with
    | [] => .ok a
    | _ :: r => .error (Stop.locate cs ⟨.trailing, r⟩)

/-- The value a whole text holds, its maps as written: unsorted, with repeated keys. -/
def readWritten (bytes : List UInt8) : Except Fault Value :=
  readWhole (fun cs => readValue (2 * cs.length + 1) maxDepth cs) bytes

/-- The value a whole text holds. -/
def readBytes (bytes : List UInt8) : Except Fault Value := (readWritten bytes).map canonical

/-- The value a whole text holds, if it holds one. -/
def read (text : String) : Option Value := (readBytes (Text.Utf8.encode text)).toOption

end RecordGraph.Value
