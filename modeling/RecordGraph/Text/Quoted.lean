import RecordGraph.Text.HiddenTable
import RecordGraph.Text.Runs

/-!
Texts as messages quote them: between double quotes, with an escape for every character that would not
be seen.
-/
namespace RecordGraph.Text

def isHidden (c : Char) : Bool := inRuns hiddenRuns c

/-- A character as a quoted text shows it; a hidden one by its code point. -/
def shown (c : Char) : List Char :=
  if c = '"' then ['\\', '"']
  else if c = '\\' then ['\\', '\\']
  else if c = '\n' then ['\\', 'n']
  else if c = '\r' then ['\\', 'r']
  else if c = '\t' then ['\\', 't']
  else if c.toNat = 0 then ['\\', '0']
  else if isHidden c then ['\\', 'u', '\x7b'] ++ Nat.toDigits 16 c.toNat ++ ['\x7d']
  else [c]

def quoted (s : String) : String := String.ofList ('"' :: (s.toList.flatMap shown ++ ['"']))

end RecordGraph.Text
