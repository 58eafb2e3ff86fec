import RecordGraph.Error
import RecordGraph.Store.Memory

/-!
Computations that read from a store. A run keeps the calls it made and the records it handed over to
be rendered, each in order, also when it ends in an error; what follows an error is not run.
-/
namespace RecordGraph

inductive Call where
  | fetch (request : Fetch)
  | related (request : FetchRelated)

/-- Records of a resource to be rendered at a level, none standing for a record that is not stored. -/
structure Batch where
  /-- The relation that leads to the records, none at the root. -/
  via : Option Field
  resource : Resource
  fields : List Field
  records : List (Option Record)
  level : Level

/-- A result, and the calls made and the records handed over on the way to it. -/
structure Run (α : Type) where
  calls : List Call
  handed : List Batch
  outcome : Except QueryError α

namespace Run
variable {α β : Type}

def ofExcept (outcome : Except QueryError α) : Run α := ⟨[], [], outcome⟩

def fail (e : QueryError) : Run α := ofExcept (.error e)

protected def pure (a : α) : Run α := ofExcept (.ok a)

protected def bind (run : Run α) (next : α → Run β) : Run β :=
  match run.outcome with
  | .error e => ⟨run.calls, run.handed, .error e⟩
  | .ok a => ⟨run.calls ++ (next a).calls, run.handed ++ (next a).handed, (next a).outcome⟩

instance : Monad Run where
  pure := Run.pure
  bind := Run.bind

instance : MonadLift (Except QueryError) Run := ⟨ofExcept⟩

/-- Keep a batch as handed over. -/
def hand (batch : Batch) : Run Unit := ⟨[], [batch], .ok ()⟩

/-- Run `f` on every item in order. -/
def each (f : α → Run β) : List α → Run (List β)
  | [] => Run.pure []
  | x :: xs => Run.bind (f x) fun y => Run.bind (each f xs) fun ys => Run.pure (y :: ys)

end Run

namespace Store

/-- The answer of the store, its errors as those of the query. -/
def answer {α : Type} (r : Except StoreError α) : Except QueryError α :=
  match r with
  | .ok a => .ok a
  | .error e => .error (.ofStore e)

def runFetch (store : Store) (request : Fetch) : Run Fetched :=
  ⟨[.fetch request], [], answer (store.fetch request)⟩

def runRelated (store : Store) (request : FetchRelated) : Run (List (String × List Record)) :=
  ⟨[.related request], [], answer (store.fetchRelated request)⟩

end Store
end RecordGraph
