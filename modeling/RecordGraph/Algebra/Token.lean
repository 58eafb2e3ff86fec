import RecordGraph.Text.Blank
import RecordGraph.Text.Lowercase

/-!
Tokens of boolean algebra texts such as `a and (b or !c)`, with the positions they stand at, counted
in code points. White space separates tokens and is otherwise skipped.
-/
namespace RecordGraph.Algebra

inductive Token where
  | symbol (name : String)
  | and
  | or
  | not
  | lparen
  | rparen
  | eof
deriving DecidableEq

namespace Token

/-- The token as messages show it. -/
def text : Token → String
  | symbol name => name
  | and => "and"
  | or => "or"
  | not => "not"
  | lparen => "("
  | rparen => ")"
  | eof => "EOF"

/-- A word is an operator if it spells one in any case, else a symbol. -/
def ofWord (word : String) : Token :=
  match Text.lowerAscii word with
  | "and" => .and
  | "or" => .or
  | "not" => .not
  | _ => .symbol word

end Token

/-- A token and the half-open range it covers. -/
structure Spanned where
  token : Token
  start : Nat
  stop : Nat
deriving DecidableEq

/-- The first character that begins no token, and where it stands. -/
inductive LexError where
  | unexpectedChar (c : Char) (position : Nat)
deriving DecidableEq

def LexError.message : LexError → String
  | unexpectedChar c position =>
    "unexpected character '" ++ c.toString ++ "' at position " ++ position.repr

/-- ASCII letters, digits and the underscore. -/
def isWordChar (c : Char) : Bool := c.isAlphanum || c == '_'

/-- `mark` doubled counts once. -/
def skipMark (mark : Char) : List Char → List Char
  | d :: rest => if d = mark then rest else d :: rest
  | [] => []

/-- The token that begins with `c`, and what follows it. Words are as long as they can be. -/
def lexeme (c : Char) (cs : List Char) : Option (Token × List Char) :=
  if c = '(' then some (.lparen, cs)
  else if c = ')' then some (.rparen, cs)
  else if c = '&' then some (.and, skipMark '&' cs)
  else if c = '|' then some (.or, skipMark '|' cs)
  else if c = '!' || c = '~' then some (.not, cs)
  else if isWordChar c then
    some (.ofWord (String.ofList (c :: cs.takeWhile isWordChar)), cs.dropWhile isWordChar)
  else none

theorem skipMark_length (mark : Char) (cs : List Char) : (skipMark mark cs).length ≤ cs.length := by
  cases cs with
  | nil => simp [skipMark]
  | cons d rest => simp only [skipMark]; split <;> simp

theorem lexeme_length {c : Char} {cs rest : List Char} {token : Token}
    (h : lexeme c cs = some (token, rest)) : rest.length ≤ cs.length := by
  unfold lexeme at h
  repeat' split at h
  all_goals simp only [Option.some.injEq, Prod.mk.injEq, reduceCtorEq] at h
  all_goals obtain ⟨-, rfl⟩ := h
  all_goals first
    | exact Nat.le_refl _
    | exact skipMark_length ..
    | exact (List.dropWhile_sublist _).length_le

/-- The tokens of `cs`, which begins at `position`. -/
def scan (position : Nat) : List Char → Except LexError (List Spanned)
  | [] => .ok [⟨.eof, position, position⟩]
  | c :: cs =>
    if Text.isBlank c then scan (position + 1) cs
    else match h : lexeme c cs with
      | none => .error (.unexpectedChar c position)
      | some (token, rest) =>
        have := lexeme_length h
        let stop := position + ((c :: cs).length - rest.length)
        (scan stop rest).map (⟨token, position, stop⟩ :: ·)
termination_by cs => cs.length

def tokenize (text : String) : Except LexError (List Spanned) := scan 0 text.toList

end RecordGraph.Algebra
