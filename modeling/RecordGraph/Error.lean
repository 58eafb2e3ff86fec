import RecordGraph.Algebra.Predicate
import RecordGraph.Graph.FieldSource
import RecordGraph.Query.Level
import RecordGraph.Store.Error

/-!
Errors of queries: every cause, the kind it belongs to, and its message.
-/
namespace RecordGraph

/-- What is wrong with one parameter of a querystring. -/
inductive ParamFault where
  | unknownFeature
  | unexpectedSubkey
  | notSingle
  | notPositive
  | unknownPageOption
  | missingSubkey
  | emptySubkey
  | severalAlgebras
  | notSingleAlgebra
  | reservedTag (tag : String)
  | tooManySegments
  | unknownOperator (op : String)
  | duplicateTag (tag : String)
deriving DecidableEq

def ParamFault.message : ParamFault → String
  | unknownFeature => "unknown feature"
  | unexpectedSubkey => "unexpected subkey"
  | notSingle => "expecting a single value"
  | notPositive => "expecting a positive integer"
  | unknownPageOption => "unknown page option"
  | missingSubkey => "expecting a subkey"
  | emptySubkey => "empty subkey"
  | severalAlgebras => "only one algebra expression per level"
  | notSingleAlgebra => "expecting a single algebra expression"
  | reservedTag tag => "\"" ++ tag ++ "\" cannot be used as a tag"
  | tooManySegments => "too many segments"
  | unknownOperator op => "unknown operator \"" ++ op ++ "\""
  | duplicateTag tag => "duplicate tag \"" ++ tag ++ "\""

/-- Why a query is no query. -/
inductive InvalidQuery where
  | param (key : String) (fault : ParamFault)
  | querystring (text : String)
  | path (path : String)
  | encodedState
  | noClauses (op : String)
  | action (name : String)
  | level (level : Level)
  | cursor (token : String)
  | noResource
  | noSpace (resource : String)
  | unknownField (resource field : String)
  | computedField (resource field : String)
deriving DecidableEq

def InvalidQuery.message : InvalidQuery → String
  | param key fault => key ++ ": " ++ fault.message
  | querystring text => "invalid querystring: " ++ text
  | path text => "invalid path: " ++ text
  | encodedState => "query: invalid encoded state"
  | noClauses op => "where=" ++ op ++ " has no clauses"
  | action name => "unknown action \"" ++ name ++ "\""
  | level segments => "invalid level: " ++ Level.text segments
  | cursor token => "page:after is invalid: " ++ token
  | noResource => "a resource is required"
  | noSpace resource => "resource " ++ resource ++ " requires a space"
  | unknownField resource field => "unknown field " ++ resource ++ "." ++ field
  | computedField resource field =>
    "cannot filter or sort by computed field " ++ resource ++ "." ++ field

/-- Why an expression cannot be used. -/
inductive InvalidExpression where
  | compile (error : Algebra.CompileError)
  | eval (error : Expr.EvalError)

def InvalidExpression.message : InvalidExpression → String
  | compile error => error.message
  | eval error => error.message

/-- What a query addresses and the graph or the store does not have. -/
inductive Missing where
  | space (name : String)
  | resource (space name : String)
  | record (resource id : String)
  | field (resource name : String)
deriving DecidableEq

def Missing.message : Missing → String
  | space name => "space " ++ name
  | resource owner name => "resource " ++ owner ++ "." ++ name
  | record owner id => owner ++ " " ++ id
  | field owner name => "field " ++ owner ++ "." ++ name

/-- What is wrong with a resource as it is configured. -/
inductive Misconfiguration where
  | fieldSource (resource : String) (fault : SourceFault)
  | prefetchUnresolved (resource : String) (error : Expr.EvalError)
  | prefetchNotBoolean (resource : String) (value : Value)
  | ruleUnresolved (resource key : String) (error : Expr.EvalError)
  | noSource (resource : String)
  | noTargetSource (resource : String)
  | noSingletonRecord (resource : String)

def Misconfiguration.message : Misconfiguration → String
  | fieldSource resource fault => resource ++ "." ++ fault.message
  | prefetchUnresolved resource error => resource ++ ".prefetch: " ++ error.message
  | prefetchNotBoolean resource value =>
    resource ++ ".prefetch: must resolve to a boolean, not " ++ value.text
  | ruleUnresolved resource key error =>
    resource ++ ": failed to resolve can (key = " ++ key ++ "): " ++ error.message
  | noSource resource => resource ++ ": cannot get a collection resource with no source"
  | noTargetSource resource => resource ++ ": relation target has no source"
  | noSingletonRecord resource => resource ++ ": could not locate record for singleton resource"

/-- Why a record cannot be rendered. -/
inductive RenderFault where
  | noLink (resource field : String)
  | noRecord (resource field path : String)
  | unresolvedLink (resource field link : String)
  | endless (resource : String) (level : Level)
deriving DecidableEq

def RenderFault.message : RenderFault → String
  | noLink resource field =>
    "cannot serialize relation for field " ++ resource ++ "." ++ field ++ ": type has no link"
  | noRecord resource field path =>
    resource ++ "." ++ field ++ ": source " ++ path ++
      " must start with . because there is no record"
  | unresolvedLink resource field link =>
    resource ++ "." ++ field ++ ": resource " ++ link ++ " not found"
  | endless resource level => resource ++ ": endless relation at level " ++ Level.text level

/-- Why a query could not be carried out. -/
inductive ExecutionFault where
  | unsupported (action : String)
  | store (error : StoreError)

def ExecutionFault.message : ExecutionFault → String
  | unsupported action => "action not supported: " ++ action
  | store error => error.message

inductive QueryError where
  | query (cause : InvalidQuery)
  | expression (cause : InvalidExpression)
  | forbidden (action resource : String)
  | notFound (what : Missing)
  | methodNotAllowed (action resource field : String)
  | misconfigured (cause : Misconfiguration)
  | serialization (cause : RenderFault)
  | execution (cause : ExecutionFault)

namespace QueryError

/-- The stable name of the kind of an error. -/
def kind : QueryError → String
  | query _ => "queryValidation"
  | expression _ => "expressionValidation"
  | forbidden _ _ => "forbidden"
  | notFound _ => "notFound"
  | methodNotAllowed _ _ _ => "methodNotAllowed"
  | misconfigured _ => "resourceMisconfigured"
  | serialization _ => "serialization"
  | execution _ => "queryExecution"

def message : QueryError → String
  | query cause => "invalid query: " ++ cause.message
  | expression cause => "invalid expression: " ++ cause.message
  | forbidden action resource => "forbidden: " ++ action ++ " " ++ resource
  | notFound what => "not found: " ++ what.message
  | methodNotAllowed action resource field =>
    "method not allowed: " ++ action ++ " " ++ resource ++ "." ++ field
  | misconfigured cause => "resource misconfigured: " ++ cause.message
  | serialization cause => "serialization failed: " ++ cause.message
  | execution cause => "query execution failed: " ++ cause.message

def ofEval (error : Expr.EvalError) : QueryError := .expression (.eval error)

def ofStore (error : StoreError) : QueryError := .execution (.store error)

def param (key : String) (fault : ParamFault) : QueryError := .query (.param key fault)

end QueryError
end RecordGraph
