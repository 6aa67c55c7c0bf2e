import Entail.Change
import Entail.Network.Join
/-!
# Blockers

A stage that holds back the tokens for which a conjunction of patterns matches. It counts the
matches of the conjunction for each token and passes on the tokens whose count is zero.
-/

namespace Entail

structure Blocker where
  chain : JoinChain
  counts : OrderedMap Token Nat
deriving DecidableEq

namespace Blocker

/-- A blocker for tokens that bind the variables `bound`. -/
def ofPatterns (bound : OrderedSet Variable) (conjunction : List Pattern) : Blocker :=
  ⟨.ofPatterns bound conjunction, ∅⟩

def fill (contents : Contents) (k : Blocker) : Except Fault Blocker := do
  return { k with chain := ← k.chain.fill contents }

/-- Take up or give up a token. It is passed on if nothing blocks it. -/
def receive (k : Blocker) : Change Token → Except Fault (List (Change Token) × Blocker)
  | .gained t => do
    let (found, chain) ← k.chain.addSeed t
    if k.counts.contains t then throw .blockerActivatedTwice
    return (if found.isEmpty then [.gained t] else [], ⟨chain, k.counts.insert t found.length⟩)
  | .lost t => do
    let (_, chain) ← k.chain.removeSeed t
    match k.counts.get? t with
    | none => throw .blockerUnknown
    | some n => return (if n = 0 then [.lost t] else [], ⟨chain, k.counts.erase t⟩)

def receiveAll (k : Blocker) (incoming : List (Change Token)) :
    Except Fault (List (Change Token) × Blocker) :=
  runStage receive k incoming

/-- Count one more match for a token; the first one withdraws the token. -/
def raise (counts : OrderedMap Token Nat) (p : Partial) :
    Except Fault (List (Change Token) × OrderedMap Token Nat) :=
  match counts.get? p.seed with
  | none => .error .blockerMatchUnknown
  | some n => .ok (if n = 0 then [.lost p.seed] else [], counts.insert p.seed (n + 1))

/-- Count one match less for a token; the last one releases the token. -/
def lower (counts : OrderedMap Token Nat) (p : Partial) :
    Except Fault (List (Change Token) × OrderedMap Token Nat) :=
  match counts.get? p.seed with
  | none => .error .blockerMatchUnknown
  | some 0 => .error .blockerCountUnderflow
  | some (n + 1) => .ok (if n = 0 then [.gained p.seed] else [], counts.insert p.seed n)

def factInserted (q : Quad) (k : Blocker) : Except Fault (List (Change Token) × Blocker) := do
  let (found, chain) ← k.chain.insertFact q
  let (out, counts) ← runStage raise k.counts found
  return (out, ⟨chain, counts⟩)

def factRemoved (q : Quad) (k : Blocker) : Except Fault (List (Change Token) × Blocker) := do
  let (found, chain) ← k.chain.removeFact q
  let (out, counts) ← runStage lower k.counts found
  return (out, ⟨chain, counts⟩)

/-- A new quad blocks tokens before the tokens that come with it arrive. -/
def onInsert (q : Quad) (k : Blocker) (incoming : List (Change Token)) :
    Except Fault (List (Change Token) × Blocker) := do
  let (blocked, k) ← k.factInserted q
  let (out, k) ← k.receiveAll incoming
  return (blocked ++ out, k)

/-- The tokens that go with a quad leave before the quad stops blocking others. -/
def onRemove (q : Quad) (k : Blocker) (incoming : List (Change Token)) :
    Except Fault (List (Change Token) × Blocker) := do
  let (out, k) ← k.receiveAll incoming
  let (released, k) ← k.factRemoved q
  return (out ++ released, k)

end Blocker

end Entail
