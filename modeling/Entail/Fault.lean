import Entail.Error
import Entail.Variable
/-!
# Faults

The ways in which the stages of a network, or the counts kept beside it, could disagree with one
another. A fault is not an answer to a request: it would mean that a stage was given inconsistent
input.
-/

namespace Entail

inductive Fault where
  | unboundJoinVariable (v : Variable)
  | blockerActivatedTwice
  | blockerUnknown
  | blockerMatchUnknown
  | blockerCountUnderflow
  | memberActivatedTwice
  | memberUnknown
  | outputActivatedTwice
  | outputUnknown
  | solutionUnderflow
  | ruleSupportUnderflow
  | totalSupportUnderflow
  | firingActivatedTwice
  | firingUnknown
deriving DecidableEq

def Fault.message : Fault → String
  | unboundJoinVariable v => "join variable " ++ v.text ++ " is unbound"
  | blockerActivatedTwice => "token activated twice at a negative stage"
  | blockerUnknown => "unknown token deactivated at a negative stage"
  | blockerMatchUnknown => "negative match for an unknown token"
  | blockerCountUnderflow => "negative count underflow"
  | memberActivatedTwice => "token activated twice at an aggregate stage"
  | memberUnknown => "unknown token deactivated at an aggregate stage"
  | outputActivatedTwice => "output token activated twice"
  | outputUnknown => "unknown output token deactivated"
  | solutionUnderflow => "solution support underflow"
  | ruleSupportUnderflow => "rule support underflow"
  | totalSupportUnderflow => "total support underflow"
  | firingActivatedTwice => "rule match activated twice"
  | firingUnknown => "unknown rule match deactivated"

/-- Why an operation ended early. -/
inductive StopCause where
  | error (e : Error)
  | fault (f : Fault)
deriving DecidableEq

end Entail
