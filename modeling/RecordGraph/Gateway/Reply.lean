import RecordGraph.Error
import RecordGraph.Gateway.Bearer

/-!
Replies of the gateway: a status and, where there is one, a body. Refusals are told in an envelope
that names their kind; faults of the graph and of the store are not told in detail.
-/
namespace RecordGraph

/-- Why a requester is not let in. -/
inductive Unauthorized where
  | notAccepted
  | token (fault : TokenFault)
deriving DecidableEq

def Unauthorized.message : Unauthorized → String
  | notAccepted => "bearer tokens are not accepted"
  | token fault => "invalid bearer token: " ++ fault.message

/-- Why a query gets no response. -/
inductive Refusal where
  | unauthorized (cause : Unauthorized)
  | query (error : QueryError)

namespace Refusal

def status : Refusal → Nat
  | unauthorized _ => 401
  | query (.query _) | query (.expression _) => 400
  | query (.forbidden _ _) => 403
  | query (.notFound _) => 404
  | query (.methodNotAllowed _ _ _) => 405
  | query (.misconfigured _) | query (.serialization _) | query (.execution _) => 500

def kind : Refusal → String
  | unauthorized _ => "unauthorized"
  | query error => error.kind

/-- What the requester is told; the details of internal errors are kept back. -/
def message : Refusal → String
  | unauthorized cause => cause.message
  | query (.misconfigured _) | query (.serialization _) | query (.execution _) =>
    "An internal error occurred"
  | query error => error.message

def toValue (r : Refusal) : Value :=
  .node "error" (.object
    [("type", .str r.kind), ("message", .str r.message), ("statusCode", .nat r.status)])

end Refusal

structure Reply where
  status : Nat
  body : Option Value := none

namespace Reply

def ok (body : Value) : Reply := ⟨200, some body⟩

def refuse (refusal : Refusal) : Reply := ⟨refusal.status, some refusal.toValue⟩

/-- The reply to a request that asks for the status alone. -/
def withoutBody (reply : Reply) : Reply := { reply with body := none }

end Reply
end RecordGraph
