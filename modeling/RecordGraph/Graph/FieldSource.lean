import RecordGraph.Text.Pieces
import RecordGraph.Value.Printer

/-!
Where the value of a field comes from: a path into the stored record, a path into the request
context, or an expression over both.
-/
namespace RecordGraph

inductive FieldSource where
  | path (path : String)
  | context (path : String)
  | expression (expr : Value)

/-- Why a declared source is none. -/
inductive SourceFault where
  | empty (field : String)
  | invalid (field : String) (source : Value)

def SourceFault.message : SourceFault → String
  | empty field => field ++ ": empty source"
  | invalid field source => field ++ ": invalid source " ++ source.text

namespace FieldSource

/-- The source a field declares; without one, the field is stored under its own name. -/
def declared (field : String) : Option Value → Except SourceFault FieldSource
  | none => .ok (.path field)
  | some .null => .ok (.path field)
  | some (.str s) =>
    if s.isEmpty then .error (.empty field)
    else match Text.afterChar? '.' s with
      | some rest => .ok (.context rest)
      | none => .ok (.path s)
  | some (.obj es) => .ok (.expression (.obj es))
  | some v => .error (.invalid field v)

/-- The path into the record, for sources that read it. -/
def storagePath? : FieldSource → Option String
  | .path p => some p
  | _ => none

def isComputed (source : FieldSource) : Bool := source.storagePath?.isNone

/-- The source as it is declared. -/
def toValue : FieldSource → Value
  | .path p => .str p
  | .context p => .str ("." ++ p)
  | .expression e => e

end FieldSource
end RecordGraph
