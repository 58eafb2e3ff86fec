/-!
The operations a query may ask for, with their names in texts and tables.
-/
namespace RecordGraph

inductive Action where
  | get
  | add
  | set
  | edit
  | delete
  | explain
  | options
deriving DecidableEq

namespace Action

def all : List Action := [.get, .add, .set, .edit, .delete, .explain, .options]

def name : Action → String
  | get => "get"
  | add => "add"
  | set => "set"
  | edit => "edit"
  | delete => "delete"
  | explain => "explain"
  | options => "options"

def ofName? (s : String) : Option Action := all.find? fun a => a.name == s

theorem mem_all (a : Action) : a ∈ all := by cases a <;> simp [all]

theorem ofName?_name (a : Action) : ofName? a.name = some a := by cases a <;> decide

end Action
end RecordGraph
