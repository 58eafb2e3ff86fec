import RecordGraph.Text.Numeral
import RecordGraph.Text.Pieces

/-!
Dotted paths into values. A segment names a key of a map or a position in a list; positions are read
as numbers, so a leading plus sign and leading zeros do not matter.
-/
namespace RecordGraph.Value

/-- The value one segment leads to. -/
def child? (segment : String) : Value → Option Value
  | .obj es => Entries.get? es segment
  | .arr xs => (Text.uint64? segment).bind fun n => xs[n.toNat]?
  | _ => none

def descend : List String → Value → Option Value
  | [], v => some v
  | segment :: rest, v => (v.child? segment).bind (descend rest)

/-- The value a dotted path leads to; the empty path leads nowhere. -/
def lookup (path : String) (v : Value) : Option Value :=
  if path.isEmpty then none else descend (Text.pieces '.' path) v

end RecordGraph.Value
