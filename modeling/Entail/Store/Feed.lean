import Entail.Change
import Entail.Ordered.Map
import Entail.Quad
/-!
# Change feeds

A buffer of changes for each open subscription. Subscriptions are numbered from zero and no number
is used twice.
-/

namespace Entail

structure ChangeFeed where
  nextId : Nat
  buffers : OrderedMap Nat (List (Change Quad))
deriving DecidableEq

namespace ChangeFeed

def empty : ChangeFeed := ⟨0, ∅⟩

/-- Open a subscription that has seen no change yet. -/
def subscribe (f : ChangeFeed) : Nat × ChangeFeed :=
  (f.nextId, ⟨f.nextId + 1, f.buffers.insert f.nextId []⟩)

/-- Whether the subscription was open, and the feed without it. -/
def unsubscribe (f : ChangeFeed) (id : Nat) : Bool × ChangeFeed :=
  (f.buffers.contains id, { f with buffers := f.buffers.erase id })

/-- Append a change to every open buffer. -/
def publish (f : ChangeFeed) (c : Change Quad) : ChangeFeed :=
  { f with buffers := f.buffers.mapValues fun b => b ++ [c] }

/-- The changes waiting for a subscription; a closed one has none. -/
def waiting (f : ChangeFeed) (id : Nat) : List (Change Quad) :=
  (f.buffers.get? id).getD []

/-- Take the changes waiting for a subscription. -/
def drain (f : ChangeFeed) (id : Nat) : List (Change Quad) × ChangeFeed :=
  (f.waiting id,
    if f.buffers.contains id then { f with buffers := f.buffers.insert id [] } else f)

def pending (f : ChangeFeed) (id : Nat) : Nat :=
  (f.waiting id).length

/-- The number of open subscriptions. -/
def size (f : ChangeFeed) : Nat :=
  f.buffers.size

end ChangeFeed

end Entail
