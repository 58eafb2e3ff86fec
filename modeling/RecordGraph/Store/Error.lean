import RecordGraph.Expr.Method

/-!
What can go wrong between a query and the stored records.
-/
namespace RecordGraph

/-- Why a set of records cannot be loaded. -/
inductive LoadFault where
  | notCollections
  | notList (collection : String)
deriving DecidableEq

def LoadFault.message : LoadFault → String
  | notCollections => "records must be an object of lists"
  | notList collection => collection ++ ": expecting a list"

inductive StoreError where
  | unknownSource (name : String)
  | predicate (error : Expr.EvalError)
  | backend (fault : LoadFault)

def StoreError.message : StoreError → String
  | unknownSource name => "unknown source: " ++ name
  | predicate error => "invalid predicate: " ++ error.message
  | backend fault => "backend failure: " ++ fault.message

end RecordGraph
