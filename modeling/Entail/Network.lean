import Entail.Condition
import Entail.Network.Blocker
import Entail.Network.Grouping
/-!
# Networks

The matches of a condition, kept up to date as quads come and go: a chain for the positive patterns,
a blocker for each negative conjunction, and a grouping if the condition aggregates.
-/

namespace Entail

structure Network where
  condition : Condition
  positive : JoinChain
  blockers : List Blocker
  grouping : Option Grouping
  /-- The matches or rows that are out. -/
  outputs : OrderedSet Token
deriving DecidableEq

namespace Network

/-- A network that has seen no quad, for a well-formed condition. -/
def compile (c : Condition) : Except Error Network :=
  match c.problem? with
  | some p => .error (.invalidQuery p)
  | none => .ok {
      condition := c
      positive := .ofPatterns ∅ c.positives
      blockers := c.negatives.map (.ofPatterns c.positiveVariables)
      grouping := c.aggregation.map .new
      outputs := ∅ }

/-- Send changes through the blockers, each of which receives what the one before passed on. -/
def sift (f : Blocker → List (Change Token) → Except Fault (List (Change Token) × Blocker)) :
    List Blocker → List (Change Token) → Except Fault (List (Change Token) × List Blocker)
  | [], changes => .ok (changes, [])
  | k :: rest, changes => do
    let (changes, k) ← f k changes
    let (changes, rest) ← sift f rest changes
    return (changes, k :: rest)

/-- Send changes through the grouping, if there is one. -/
def collect (ev : Evaluator) (changes : List (Change Token)) :
    Option Grouping → Except Fault (Propagation × Option Grouping)
  | none => .ok (⟨changes, []⟩, none)
  | some g => do
    let (p, g) ← g.receiveAll ev changes
    return (p, some g)

/-- Record what came out. -/
def record (outputs : OrderedSet Token) : List (Change Token) → Except Fault (OrderedSet Token)
  | [] => .ok outputs
  | .gained t :: rest =>
    if t ∈ outputs then .error .outputActivatedTwice else record (outputs.insert t) rest
  | .lost t :: rest =>
    if t ∈ outputs then record (outputs.erase t) rest else .error .outputUnknown

/-- Put the parts of a network together again after a change and send on what came through the
blockers. -/
def finish (n : Network) (ev : Evaluator) (positive : JoinChain) (blockers : List Blocker)
    (changes : List (Change Token)) : Except Fault (Propagation × Network) := do
  let (p, grouping) ← collect ev changes n.grouping
  let outputs ← record n.outputs p.changes
  return (p, { n with positive, blockers, grouping, outputs })

/-- Take in the contents of a store. -/
def prime (ev : Evaluator) (contents : Contents) (n : Network) :
    Except Fault (Propagation × Network) := do
  let positive ← n.positive.fill contents
  let blockers ← n.blockers.mapM (Blocker.fill contents)
  let (found, positive) ← positive.addSeed .root
  let (changes, blockers) ←
    sift Blocker.receiveAll blockers (found.map fun p => .gained p.token)
  n.finish ev positive blockers changes

def insert (ev : Evaluator) (q : Quad) (n : Network) : Except Fault (Propagation × Network) := do
  let (found, positive) ← n.positive.insertFact q
  let (changes, blockers) ←
    sift (Blocker.onInsert q) n.blockers (found.map fun p => .gained p.token)
  n.finish ev positive blockers changes

def remove (ev : Evaluator) (q : Quad) (n : Network) : Except Fault (Propagation × Network) := do
  let (found, positive) ← n.positive.removeFact q
  let (changes, blockers) ←
    sift (Blocker.onRemove q) n.blockers (found.map fun p => .lost p.token)
  n.finish ev positive blockers changes

/-- Take in the gain or the loss of a quad. -/
def update (ev : Evaluator) (n : Network) : Change Quad → Except Fault (Propagation × Network)
  | .gained q => n.insert ev q
  | .lost q => n.remove ev q

/-- The matches or rows that are out, in order. -/
def tokens (n : Network) : List Token :=
  n.outputs.toList

/-- The bindings of the matches of the first `i + 1` positive patterns. -/
def stepBindings (n : Network) (i : Nat) : OrderedSet Bindings :=
  .ofList ((n.positive.level (i + 1)).map Partial.bindings)

end Network

end Entail
