import Entail.Network.Blocker
import Entail.Pattern.Fit
/-!
# Calls

The calls made to a join chain or to a blocker one after the other, what they bring in and take away,
and the matches that there are for what is left in the end.
-/

namespace Entail

/-- `p` extends a seed by a held quad for each of the patterns: it binds what the seed binds and the
variables of the patterns, to nodes for which every pattern stands for its quad. -/
structure Partial.IsMatch (seeds : Token → Prop) (held : Quad → Prop) (ps : List Pattern)
    (p : Partial) : Prop where
  seed : seeds p.seed
  held : ∀ q ∈ p.facts, held q
  agrees : p.bindings.Extends p.seed.bindings
  fits : Pattern.FitsAll p.bindings ps p.facts
  binds : ∀ v, p.bindings.contains v = true ↔
    p.seed.bindings.contains v = true ∨ ∃ q ∈ ps, v ∈ q.vars

/-! ## Join chains -/

/-- A seed or a quad comes or goes. -/
inductive ChainCall where
  | seed (change : Change Token)
  | fact (change : Change Quad)
deriving DecidableEq

namespace ChainCall

def seed? : ChainCall → Option (Change Token)
  | seed change => some change
  | fact _ => none

def fact? : ChainCall → Option (Change Quad)
  | seed _ => none
  | fact change => some change

end ChainCall

namespace JoinChain

def call (c : JoinChain) : ChainCall → Except Fault (List Partial × JoinChain)
  | .seed (.gained t) => c.addSeed t
  | .seed (.lost t) => c.removeSeed t
  | .fact (.gained q) => c.insertFact q
  | .fact (.lost q) => c.removeFact q

/-- The memory of the matches of the first `n` patterns. -/
def memory? : JoinChain → Nat → Option PartialMemory
  | .done complete, 0 => some complete
  | .done _, _ + 1 => none
  | .stage before _ _, 0 => some before
  | .stage _ _ rest, n + 1 => rest.memory? n

/-- The memory of the quads that match the pattern after the first `n`. -/
def facts? : JoinChain → Nat → Option FactMemory
  | .done _, _ => none
  | .stage _ facts _, 0 => some facts
  | .stage _ _ rest, n + 1 => rest.facts? n

end JoinChain

/-! ## Blockers -/

/-- Changes of the tokens arrive, alone or with a quad that comes or goes. -/
inductive BlockerCall where
  | received (incoming : List (Change Token))
  | inserted (q : Quad) (incoming : List (Change Token))
  | removed (q : Quad) (incoming : List (Change Token))
deriving DecidableEq

namespace BlockerCall

def incoming : BlockerCall → List (Change Token)
  | received incoming => incoming
  | inserted _ incoming => incoming
  | removed _ incoming => incoming

def fact? : BlockerCall → Option (Change Quad)
  | received _ => none
  | inserted q _ => some (.gained q)
  | removed q _ => some (.lost q)

end BlockerCall

namespace Blocker

def call (k : Blocker) : BlockerCall → Except Fault (List (Change Token) × Blocker)
  | .received incoming => k.receiveAll incoming
  | .inserted q incoming => k.onInsert q incoming
  | .removed q incoming => k.onRemove q incoming

end Blocker

end Entail
