import Entail.Fault
/-!
# Changes

Something gained or lost by a set: a quad by a store, a token by a stage of a network, a solution by
a query. A stage turns each input into outputs while changing its own state. Running a stage on a list
of inputs collects the outputs in order.
-/

namespace Entail

inductive Change (α : Type) where
  | gained (value : α)
  | lost (value : α)
deriving DecidableEq

namespace Change

variable {α β : Type}

def value : Change α → α
  | gained a => a
  | lost a => a

def isGain : Change α → Bool
  | gained _ => true
  | lost _ => false

end Change

def runStage {σ α β : Type} (step : σ → α → Except Fault (List β × σ)) (s : σ) :
    List α → Except Fault (List β × σ)
  | [] => .ok ([], s)
  | a :: rest => do
    let (out, s) ← step s a
    let (more, s) ← runStage step s rest
    return (out ++ more, s)

/-- Whether an element enters a memory or leaves it. -/
inductive Update where
  | insert
  | remove
deriving DecidableEq

end Entail
