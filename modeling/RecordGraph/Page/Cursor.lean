import RecordGraph.Error
import RecordGraph.Text.Base64
import RecordGraph.Text.Utf8
import RecordGraph.Value.Fields
import RecordGraph.Value.Reader

/-!
Cursors: where a page begins, by position or after given sort values. Their token is the base64 of
their compact text; other keys in it are ignored, and a key given twice does not count.
-/
namespace RecordGraph

inductive Cursor where
  | offset (position : UInt64)
  | keyset (after : Entries Value)

namespace Cursor

def toValue : Cursor → Value
  | .offset n => .node "offset" (.uint n)
  | .keyset after => .node "after" (.obj after)

/-- A position, or else sort values. -/
def ofValue? : Value → Option Cursor
  | .obj es =>
    match (Value.only? es "offset").bind Value.uint? with
    | some n => some (.offset n)
    | none =>
      match Value.only? es "after" with
      | some (.obj after) => some (.keyset (Entries.ofList (Value.canonicalEntries after)))
      | _ => none
  | _ => none

def encode (c : Cursor) : String := Text.Base64.encode (Text.Utf8.encode c.toValue.text)

/-- The cursor that a token holds. -/
def decode (token : String) : Except QueryError Cursor :=
  match ((Text.Base64.decode token).bind fun bytes => (Value.readWritten bytes).toOption).bind ofValue? with
  | some c => .ok c
  | none => .error (.query (.cursor token))

end Cursor
end RecordGraph
