import RecordGraph.Predicate.Context
import RecordGraph.Predicate.Resolve
import RecordGraph.Proofs.Expr.Literal

/-!
Formulas over the fields of a resource: what rules and filters are written in. Their methods come to
a truth value, and their references point at data without structure.
-/
namespace RecordGraph

/-- A field whose name and storage path each read as a path into a record, and as nothing else. -/
structure Field.Plain (f : Field) (path : String) : Prop where
  stored : f.source.storagePath? = some path
  undotted : '.' ∉ f.name.toList
  named : f.name ∉ ["fields", "request", "query"]
  unscoped : Expr.isScoped path = false
  filled : "" ∉ Text.pieces '.' path
  unquoted : Expr.unquoted? path = none

/-- Formulas over the stored fields of a resource, with references that satisfy `refers`. -/
inductive Formula (r : Resource) (refers : String → Prop) : Value → Prop
  | null : Formula r refers .null
  | bool (b : Bool) : Formula r refers (.bool b)
  | num (n : Number) : Formula r refers (.num n)
  | quoted {s inner : String} (h : Expr.unquoted? s = some inner) : Formula r refers (.str s)
  | field {f : Field} {path : String} (found : r.field? f.name = some f) (plain : f.Plain path) :
    Formula r refers (.str f.name)
  | reference {s path : String} (h : Text.afterChar? '.' s = some path) (points : refers path) :
    Formula r refers (.str s)
  | list {xs : List Value} (each : ∀ x ∈ xs, Formula r refers x) : Formula r refers (.arr xs)
  | node {name : String} {m : Expr.Method} {xs : List Value}
    (method : Expr.Method.ofName? name = some m) (decides : m.decides)
    (each : ∀ x ∈ xs, Formula r refers x) : Formula r refers (.node name (.arr xs))
  | bare {name : String} {op : Expr.Unary} {v : Value}
    (method : Expr.Method.ofName? name = some (.unary op))
    (decides : (Expr.Method.unary op).decides) (single : v.arr? = none)
    (operand : Formula r refers v) : Formula r refers (.node name v)

/-- A formula without references. -/
abbrev Settled (r : Resource) : Value → Prop := Formula r fun _ => False

/-- A path that points at nothing or at data without structure, and not into the record. -/
structure Context.Refers (ctx : Context) (path : String) : Prop where
  /-- References that end with a point keep text as a reference of its own. -/
  closed : path.toList.getLast? ≠ some '.'
  outside : (Text.pieces '.' path).head? ≠ some "fields"
  flat : ∀ v, ctx.scope.lookup path = some v → v.arr? = none ∧ v.obj? = none

end RecordGraph
