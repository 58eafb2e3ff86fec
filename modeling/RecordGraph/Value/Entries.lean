/-!
Maps with string keys, kept as lists in increasing order of their keys. A key that is given again
keeps its last value. Nothing here assumes the order; `insert` keeps it.
-/
namespace RecordGraph

/-- A map from strings, as a list of its entries. -/
abbrev Entries (α : Type) := List (String × α)

namespace Entries
variable {α β : Type}

def get? (es : Entries α) (key : String) : Option α := es.lookup key

def has (es : Entries α) (key : String) : Bool := (es.get? key).isSome

def keys (es : Entries α) : List String := es.map Prod.fst

/-- Put `value` at `key`, in the place its key has in the order. -/
def insert (key : String) (value : α) : Entries α → Entries α
  | [] => [(key, value)]
  | (k, v) :: es =>
    if key < k then (key, value) :: (k, v) :: es
    else if key = k then (key, value) :: es
    else (k, v) :: insert key value es

/-- The map of the given pairs, later ones winning. -/
def ofList (pairs : List (String × α)) : Entries α :=
  pairs.foldl (fun es p => es.insert p.1 p.2) []

def mapValues (f : α → β) (es : Entries α) : Entries β := es.map fun p => (p.1, f p.2)

/-- Keys in strictly increasing order. -/
def Sorted (es : Entries α) : Prop := es.Pairwise fun a b => a.1 < b.1

end Entries
end RecordGraph
