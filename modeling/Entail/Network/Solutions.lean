import Entail.Bindings
import Entail.Change
/-!
# Solutions

The bindings of the tokens that came out of a network, each with the number of tokens that share
them.
-/

namespace Entail

structure Solutions where
  support : OrderedMap Bindings Nat
deriving DecidableEq

namespace Solutions

def empty : Solutions := ⟨∅⟩

/-- Count a token. The first one makes a solution and the last one retracts it. -/
def receive (s : Solutions) : Change Token → Except Fault (List (Change Bindings) × Solutions)
  | .gained t =>
    let n := (s.support.get? t.bindings).getD 0
    .ok (if n = 0 then [.gained t.bindings] else [], ⟨s.support.insert t.bindings (n + 1)⟩)
  | .lost t =>
    match s.support.get? t.bindings with
    | none => .error .solutionUnderflow
    | some n =>
      if n ≤ 1 then .ok ([.lost t.bindings], ⟨s.support.erase t.bindings⟩)
      else .ok ([], ⟨s.support.insert t.bindings (n - 1)⟩)

def receiveAll (s : Solutions) (incoming : List (Change Token)) :
    Except Fault (List (Change Bindings) × Solutions) :=
  runStage receive s incoming

/-- The different solutions in order. -/
def toList (s : Solutions) : List Bindings :=
  s.support.keys

/-- The solutions in order, each repeated once for every token that supports it. -/
def bag (s : Solutions) : List Bindings :=
  s.support.toList.flatMap fun e => List.replicate e.2 e.1

def size (s : Solutions) : Nat :=
  s.support.size

def isEmpty (s : Solutions) : Bool :=
  s.support.isEmpty

end Solutions

end Entail
