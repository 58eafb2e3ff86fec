import RecordGraph.Graph.Settings
import RecordGraph.Text.Blank
import RecordGraph.Text.Numeral

/-!
How a gateway is launched, as the variables of its environment say. Every variable but the path of the
graph has a default. They are read in a fixed order, and the first that is wrong is reported.
-/
namespace RecordGraph

/-- The variables that are set. -/
abbrev Environment := String → Option String

structure Launch where
  host : String
  listenPort : UInt16
  graphPath : String
  secret : Option String
  pageSize : UInt64
  pageTotal : Bool
  logLevel : String

inductive LaunchFault where
  | unset (name : String)
  | invalid (name value : String)
deriving DecidableEq

def LaunchFault.message : LaunchFault → String
  | unset name => name ++ " must be set"
  | invalid name value => name ++ " has an invalid value: " ++ value

namespace Launch

/-- The value of a variable, read without the blanks around it, or its default if it is unset. -/
def readVariable {α : Type} (env : Environment) (name : String) (default : α)
    (read : String → Option α) : Except LaunchFault α :=
  match env name with
  | none => .ok default
  | some raw =>
    match read (Text.trim raw) with
    | some a => .ok a
    | none => .error (.invalid name raw)

/-- A natural number of at most 16 bits. -/
def uint16? (s : String) : Option UInt16 :=
  (Text.nat? s).bind fun n => if n < UInt16.size then some (UInt16.ofNat n) else none

def flag? (s : String) : Option Bool :=
  if s = "true" then some true else if s = "false" then some false else none

/-- An empty secret is none. -/
def ofEnvironment (env : Environment) : Except LaunchFault Launch := do
  let listenPort ← readVariable env "PORT" 3030 uint16?
  let graphPath ← match env "GRAPH_PATH" with
    | some path => .ok path
    | none => .error (.unset "GRAPH_PATH")
  let pageSize ← readVariable env "PAGE_SIZE" 50 Text.uint64?
  let pageTotal ← readVariable env "PAGE_TOTAL" true flag?
  return {
    host := (env "HOST").getD "0.0.0.0"
    listenPort := listenPort
    graphPath := graphPath
    secret := (env "JWT_SECRET").filter fun secret => !secret.isEmpty
    pageSize := pageSize
    pageTotal := pageTotal
    logLevel := (env "LOG_LEVEL").getD "info" }

/-- Where the gateway listens. -/
def address (l : Launch) : String := l.host ++ ":" ++ l.listenPort.toNat.repr

def settings (l : Launch) : Settings := { pageSize := l.pageSize, pageTotal := l.pageTotal }

end Launch
end RecordGraph
