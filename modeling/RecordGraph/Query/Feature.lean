import RecordGraph.Query.State
import RecordGraph.Text.Lowercase

/-!
Features as querystrings name them, and lists of names as they write them.
-/
namespace RecordGraph

inductive Feature where
  | space
  | resource
  | record
  | field
  | action
  | inspect
  | take
  | filter
  | sort
  | page
  | group
  | query
deriving DecidableEq

namespace Feature

def name : Feature → String
  | space => "space"
  | resource => "resource"
  | record => "record"
  | field => "field"
  | action => "action"
  | inspect => "inspect"
  | take => "take"
  | filter => "where"
  | sort => "sort"
  | page => "page"
  | group => "group"
  | query => "query"

def all : List Feature :=
  [.space, .resource, .record, .field, .action, .inspect, .take, .filter, .sort, .page, .group, .query]

/-- The feature that the first word of a key names, in any case. -/
def ofKey? (key : String) : Option Feature :=
  let word := ((Text.piecesBy (fun c => c == '.' || c == ':') key).head?).getD ""
  all.find? fun feature => feature.name == Text.lowerAscii word

/-- Leveled features may apply below the root. -/
def isLeveled : Feature → Bool
  | take | filter | sort | page | group => true
  | _ => false

def isTarget : Feature → Bool
  | space | resource | record | field | action => true
  | _ => false

/-- What separates a feature from its subkeys; a point would begin a level. -/
def separator (feature : Feature) : Char := if feature.isLeveled then ':' else '.'

end Feature

/-! Lists of names -/

namespace Names

def isNameChar (c : Char) : Bool := c.isAlphanum || c == '*' || c == '_' || c == '-'

/-- The names in a text, whatever stands between them. -/
def split (s : String) : List String :=
  (Text.piecesBy (fun c => !isNameChar c) s).filter fun name => !name.isEmpty

/-- What a name in a `take` says: a leading minus leaves the rest out, a lone one says nothing. -/
def takeEntry (name : String) : Option (String × Take) :=
  match Text.afterChar? '-' name with
  | some rest => if rest.isEmpty then none else some (rest, .flag false)
  | none => some (name, .flag true)

/-- The `take` that texts write. -/
def take (texts : List String) : Entries Take :=
  Entries.ofList ((texts.flatMap split).filterMap takeEntry)

/-- The sort keys that texts write, with their signs; lone minus signs are none. -/
def sort (texts : List String) : List String :=
  (texts.flatMap split).filter fun name => name != "-"

end Names
end RecordGraph
