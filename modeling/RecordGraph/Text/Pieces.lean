/-!
Cutting a text at separators. A text without a separator is its one piece, so there is always a
first piece; joining the pieces with the separator gives the text back.
-/
namespace RecordGraph.Text

/-- The pieces between the characters that satisfy `p`, empty ones included. -/
def cut (p : Char → Bool) : List Char → List (List Char)
  | [] => [[]]
  | c :: cs =>
    if p c then [] :: cut p cs
    else match cut p cs with
      | piece :: rest => (c :: piece) :: rest
      | [] => [[c]]

theorem cut_ne_nil (p : Char → Bool) (cs : List Char) : cut p cs ≠ [] := by
  induction cs with
  | nil => simp [cut]
  | cons c cs ih =>
    unfold cut
    split
    · simp
    · split <;> simp

/-- The pieces of `s` between the characters that satisfy `p`. -/
def piecesBy (p : Char → Bool) (s : String) : List String := (cut p s.toList).map String.ofList

/-- The pieces of `s` between occurrences of `sep`. -/
def pieces (sep : Char) (s : String) : List String := piecesBy (· == sep) s

/-- What stands before the first `sep`, and what stands after it, if there is one. -/
def splitFirst (sep : Char) (s : String) : String × Option String :=
  let cs := s.toList
  match cs.dropWhile (· != sep) with
  | [] => (s, none)
  | _ :: rest => (String.ofList (cs.takeWhile (· != sep)), some (String.ofList rest))

/-- What stands before the last `sep` and what stands after it. -/
def splitLast? (sep : Char) (s : String) : Option (String × String) :=
  let cs := s.toList.reverse
  match cs.dropWhile (· != sep) with
  | [] => none
  | _ :: before =>
    some (String.ofList before.reverse, String.ofList (cs.takeWhile (· != sep)).reverse)

/-- The rest of `s` after a leading `c`. -/
def afterChar? (c : Char) (s : String) : Option String :=
  match s.toList with
  | d :: rest => if d = c then some (String.ofList rest) else none
  | [] => none

/-- Whether `needle` stands anywhere in `s`. -/
def occurs (needle : List Char) : List Char → Bool
  | [] => needle.isEmpty
  | c :: cs => needle.isPrefixOf (c :: cs) || occurs needle cs

def contains (s needle : String) : Bool := occurs needle.toList s.toList

def join (sep : String) (parts : List String) : String := sep.intercalate parts

end RecordGraph.Text
