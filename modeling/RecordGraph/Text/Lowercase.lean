import RecordGraph.Text.CaseTable
import RecordGraph.Text.Runs

/-!
Lower-casing of whole texts. A capital sigma that ends a word takes its final form; every other
character has a lower form of its own.
-/
namespace RecordGraph.Text

def isCased (c : Char) : Bool := inRuns casedRuns c

def isIgnorable (c : Char) : Bool := inRuns ignorableRuns c

/-- The lower form of a character outside of any word. -/
def lowerChar (c : Char) : List Char :=
  if c.toNat < 128 then [c.toLower]
  else if c.toNat = 0x130 then ['i', Char.ofNat 0x307]
  else
    match lowerRuns.find? fun (first, last, step, _) =>
      first ≤ c.toNat && c.toNat ≤ last && (c.toNat - first) % step == 0 with
    | some (_, _, _, shift) => [Char.ofNat (Int.toNat (c.toNat + shift))]
    | none => [c]

/-- After characters that carry no case, a cased one stands first. -/
def casedFirst (cs : List Char) : Bool :=
  match cs.dropWhile isIgnorable with
  | c :: _ => isCased c
  | [] => false

/-- `before` holds the characters already passed, the last one first. -/
def lowerFrom (before : List Char) : List Char → List Char
  | [] => []
  | c :: cs =>
    let lower :=
      if c = 'Σ' then [if casedFirst before && !casedFirst cs then 'ς' else 'σ'] else lowerChar c
    lower ++ lowerFrom (c :: before) cs

def lower (s : String) : String := String.ofList (lowerFrom [] s.toList)

/-- Lower-casing of the ASCII letters alone. -/
def lowerAscii (s : String) : String := String.ofList (s.toList.map Char.toLower)

end RecordGraph.Text
