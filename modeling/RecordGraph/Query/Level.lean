import RecordGraph.Text.Pieces

/-!
Levels of a query: the root, or a path of relation names below it. A level keeps its segments as they
were written; empty ones lead nowhere further and are passed over.
-/
namespace RecordGraph

/-- The segments of a dotted path, none for the root. -/
abbrev Level := List String

namespace Level

def root : Level := []

/-- The level that a dotted text names. -/
def ofText (s : String) : Level := Text.pieces '.' s

/-- The level of an optional text; an empty one is the root. -/
def ofText? : Option String → Level
  | some s => if s.isEmpty then root else ofText s
  | none => root

/-- The dotted text of a level. -/
def text (level : Level) : String := Text.join "." level

/-- The relation names that a level passes through. -/
def names (level : Level) : List String := level.filter fun segment => !segment.isEmpty

/-- The level one relation below. -/
def enter (level : Level) (name : String) : Level := level ++ ofText name

end Level
end RecordGraph
