import RecordGraph.Page.Cursor
import RecordGraph.Predicate.Build
import RecordGraph.Query.State

/-!
The part of a collection that a page asks for. One record more than the page is requested, to tell
whether there is a next page.
-/
namespace RecordGraph

structure Window where
  size : UInt64
  offset : UInt64
  cursor : Option Cursor

namespace Window

/-- The window of a page; it holds at least one record. -/
def ofPage (page : Option Page) (defaultSize : UInt64) : Except QueryError Window := do
  let size := (page.bind Page.size).getD defaultSize
  let cursor ← match page.bind Page.after with
    | some token => (Cursor.decode token).map some
    | none => .ok none
  let offset := match cursor with
    | some (.offset n) => n
    | _ => 0
  return ⟨if size = 0 then 1 else size, offset, cursor⟩

/-- One more, or the largest number there is. -/
def oneMore (n : UInt64) : UInt64 := if n.toNat + 1 < UInt64.size then n + 1 else n

def limit (w : Window) : UInt64 := oneMore w.size

/-- The fields that have to be greater than the values of the cursor. -/
def keysetPredicate (w : Window) : Option Value :=
  match w.cursor with
  | some (.keyset after) =>
    conjoin (after.map fun (field, v) => .node ">" (.arr [.str field, Expr.makeLiteral v]))
  | _ => none

/-- The cursor of the next page; `last` holds the sort values of the last record of this one. -/
def next (w : Window) (last : Option (Entries Value)) : Cursor :=
  match w.cursor, last with
  | some (.keyset _), some after => .keyset after
  | _, _ => .offset (w.offset + w.size)

end Window
end RecordGraph
