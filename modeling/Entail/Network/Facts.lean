import Entail.Change
import Entail.Pattern
import Entail.Store.Contents
/-!
# Fact memories

The quads that match one pattern, with their bindings, filed under the nodes of the variables that
join them to earlier patterns.
-/

namespace Entail

structure FactMemory where
  pattern : Pattern
  keyVariables : List Variable
  facts : Index (List Node) (Quad × Bindings)
deriving DecidableEq

namespace FactMemory

def new (pattern : Pattern) (keyVariables : List Variable) : FactMemory :=
  ⟨pattern, keyVariables, ∅⟩

/-- Record that `q` came or went. The bindings of `q` are returned if it matches the pattern and the
memory did not know of the change yet. -/
def update (m : FactMemory) (u : Update) (q : Quad) : Except Fault (Option Bindings × FactMemory) :=
  match m.pattern.match? q with
  | none => .ok (none, m)
  | some b => do
    let key ← b.joinKey m.keyVariables
    match u, m.facts.contains key (q, b) with
    | .insert, false => return (some b, { m with facts := m.facts.insert key (q, b) })
    | .remove, true => return (some b, { m with facts := m.facts.erase key (q, b) })
    | _, _ => return (none, m)

/-- The quads filed under a key. -/
def under (m : FactMemory) (key : List Node) : List (Quad × Bindings) :=
  (m.facts.bucket key).toList

def insertAll (m : FactMemory) : List Quad → Except Fault FactMemory
  | [] => .ok m
  | q :: rest => do
    let (_, m) ← m.update .insert q
    insertAll m rest

/-- Take in every matching quad of the contents. -/
def fill (m : FactMemory) (c : Contents) : Except Fault FactMemory :=
  m.insertAll (c.lookup m.pattern.filter)

end FactMemory

end Entail
