import Entail.Network.Facts
/-!
# Join chains

The matches of a list of patterns, kept up to date quad by quad. Each stage of a chain holds the
matches of the patterns before it and the quads that match its own pattern; a match or quad that
comes or goes is joined with what the stage holds of the other, and the results are passed down the
chain.
-/

namespace Entail

open Std

/-- A match of the first patterns of a chain that extends the seed it started from. -/
structure Partial where
  seed : Token
  bindings : Bindings
  facts : List Quad
deriving DecidableEq

namespace Partial

/-- The match of no pattern yet. -/
def ofSeed (t : Token) : Partial := ⟨t, t.bindings, []⟩

/-- The match extended by a quad, if the bindings agree. -/
def extend? (p : Partial) (fact : Quad × Bindings) : Option Partial :=
  (p.bindings.merge? fact.2).map fun b => ⟨p.seed, b, p.facts ++ [fact.1]⟩

def token (p : Partial) : Token := ⟨p.bindings, p.facts⟩

private def key (p : Partial) : Token × Bindings × List Quad :=
  (p.seed, p.bindings, p.facts)

private theorem eq_of_key (a b : Partial) (h : a.key = b.key) : a = b := by
  cases a; cases b; simp_all [key]

instance : Ord Partial := ordByKey key

instance : TransOrd Partial := transOrd_ordByKey key

instance : LawfulEqOrd Partial := lawfulEqOrd_ordByKey eq_of_key

end Partial

/-- Partial matches, filed under the nodes of the variables that join them to the next pattern. -/
structure PartialMemory where
  keyVariables : List Variable
  partials : Index (List Node) Partial
deriving DecidableEq

namespace PartialMemory

def new (keyVariables : List Variable) : PartialMemory := ⟨keyVariables, ∅⟩

/-- Record that `p` came or went; it is passed on if the memory did not know of the change yet. -/
def update (u : Update) (m : PartialMemory) (p : Partial) :
    Except Fault (List Partial × PartialMemory) := do
  let key ← p.bindings.joinKey m.keyVariables
  match u, m.partials.contains key p with
  | .insert, false => return ([p], { m with partials := m.partials.insert key p })
  | .remove, true => return ([p], { m with partials := m.partials.erase key p })
  | _, _ => return ([], m)

/-- The partial matches filed under a key. -/
def under (m : PartialMemory) (key : List Node) : List Partial :=
  (m.partials.bucket key).toList

def toList (m : PartialMemory) : List Partial :=
  m.partials.toList

/-- The held matches extended by a quad, if it has bindings. -/
def extendBy (m : PartialMemory) (q : Quad) : Option Bindings → Except Fault (List Partial)
  | none => .ok []
  | some b => do
    let key ← b.joinKey m.keyVariables
    return (m.under key).filterMap fun p => p.extend? (q, b)

end PartialMemory

/-- The extensions of each match by the quads of a memory. -/
def FactMemory.extendAll (m : FactMemory) : List Partial → Except Fault (List Partial)
  | [] => .ok []
  | p :: rest => do
    let key ← p.bindings.joinKey m.keyVariables
    let others ← extendAll m rest
    return (m.under key).filterMap p.extend? ++ others

/-- A chain ends in the memory of complete matches; before it comes a stage for each pattern. -/
inductive JoinChain where
  | done (complete : PartialMemory)
  | stage (before : PartialMemory) (facts : FactMemory) (rest : JoinChain)
deriving DecidableEq

namespace JoinChain

/-- An empty chain for patterns joined to seeds that bind `bound`. Each pattern is joined on the
variables it shares with the seed and the patterns before it. -/
def ofPatterns (bound : OrderedSet Variable) : List Pattern → JoinChain
  | [] => .done (.new [])
  | p :: rest =>
    let shared := (p.vars.filter bound.contains).toList
    .stage (.new shared) (.new p shared) (ofPatterns (bound.union p.vars) rest)

/-- Carry matches that came or went into the chain. The complete matches gained or lost are
returned. -/
def push (u : Update) : JoinChain → List Partial → Except Fault (List Partial × JoinChain)
  | .done complete, ps => do
    let (fresh, complete) ← runStage (PartialMemory.update u) complete ps
    return (fresh, .done complete)
  | .stage before facts rest, ps => do
    let (fresh, before) ← runStage (PartialMemory.update u) before ps
    let children ← facts.extendAll fresh
    let (complete, rest) ← rest.push u children
    return (complete, .stage before facts rest)

/-- Carry matches that came or went into the chain while a quad comes or goes. Each stage joins the
matches with the quads it held before the change, then the quad with the matches it holds after it,
so a combination of both is made once. The results for earlier stages come first. -/
def meet (u : Update) (q : Quad) : JoinChain → List Partial → Except Fault (List Partial × JoinChain)
  | .done complete, ps => (JoinChain.done complete).push u ps
  | .stage before facts rest, ps => do
    let (fresh, before) ← runStage (PartialMemory.update u) before ps
    let carried ← facts.extendAll fresh
    let (met, facts) ← facts.update u q
    let joined ← before.extendBy q met
    let (complete, rest) ← rest.meet u q (carried ++ joined)
    return (complete, .stage before facts rest)

def addSeed (c : JoinChain) (t : Token) : Except Fault (List Partial × JoinChain) :=
  c.push .insert [.ofSeed t]

def removeSeed (c : JoinChain) (t : Token) : Except Fault (List Partial × JoinChain) :=
  c.push .remove [.ofSeed t]

def insertFact (c : JoinChain) (q : Quad) : Except Fault (List Partial × JoinChain) :=
  c.meet .insert q []

def removeFact (c : JoinChain) (q : Quad) : Except Fault (List Partial × JoinChain) :=
  c.meet .remove q []

/-- Take in the quads of the contents without joining them to anything. -/
def fill (contents : Contents) : JoinChain → Except Fault JoinChain
  | .done complete => .ok (.done complete)
  | .stage before facts rest => do
    let facts ← facts.fill contents
    let rest ← rest.fill contents
    return .stage before facts rest

/-- The matches of the first `n` patterns; none beyond the end of the chain. -/
def level : JoinChain → Nat → List Partial
  | .done complete, 0 => complete.toList
  | .done _, _ + 1 => []
  | .stage before _ _, 0 => before.toList
  | .stage _ _ rest, n + 1 => rest.level n

/-- The matches of all patterns. -/
def complete : JoinChain → List Partial
  | .done complete => complete.toList
  | .stage _ _ rest => rest.complete

end JoinChain

end Entail
