import Entail.Rules.Firings
import Entail.Store
import Entail.Vocabulary
/-!
# Rule engines

The state of an engine that keeps the conclusions of its rules in a store up to date.
-/

namespace Entail

/-- What a request to a rule engine did. -/
structure FlushReport where
  rounds : Nat
  /-- Quads inserted into the store. -/
  materialized : Nat
  /-- Quads removed from the store. -/
  retracted : Nat
  /-- Quads withdrawn from the networks and reinstated. -/
  rederived : Nat
  failures : List ConclusionFailure
deriving DecidableEq

namespace FlushReport

def empty : FlushReport := ⟨0, 0, 0, 0, []⟩

/-- Nothing was stored, removed or reported. -/
def isQuiet (r : FlushReport) : Bool :=
  r.materialized == 0 && r.retracted == 0 && r.failures.isEmpty

end FlushReport

structure RuleEngine where
  config : Config
  evaluator : Evaluator
  /-- The subscription through which the engine learns of changes to the store. -/
  subscription : Nat
  slots : OrderedMap String RuleSlot
  support : Support
  /-- Changes taken from the store that the networks have not seen yet. -/
  pending : List (Change Quad)
  /-- Stored conclusions that lost a support and may hold each other up. -/
  suspects : OrderedSet Quad
  /-- Stored conclusions that the networks are told to be gone until they prove to be derivable. -/
  withdrawn : OrderedSet Quad
  /-- Conclusions to be stored at the end of the pass under way. -/
  deferred : OrderedSet Quad

namespace RuleEngine

/-- An engine without rules on a store. -/
def new (config : Config) (ev : Evaluator) (store : Store) : RuleEngine × Store :=
  let (id, store) := store.subscribe
  (⟨config, ev, id, ∅, .empty, [], ∅, ∅, ∅⟩, store)

/-- The graph that conclusions are written to. -/
def graph (e : RuleEngine) : Node :=
  .iri e.config.inferenceGraph

/-- The rules in order of their names. -/
def rules (e : RuleEngine) : List Rule :=
  e.slots.values.map RuleSlot.rule

def rule? (e : RuleEngine) (id : String) : Option Rule :=
  (e.slots.get? id).map RuleSlot.rule

/-- The store without the subscription of the engine. -/
def detach (e : RuleEngine) (store : Store) : Store :=
  (store.unsubscribe e.subscription).2

/-- A pass is under way that has quads withdrawn or conclusions held back. -/
def isRederiving (e : RuleEngine) : Bool :=
  !e.withdrawn.isEmpty || !e.deferred.isEmpty

def text (e : RuleEngine) : String :=
  let ids := e.slots.keys.map fun id => "RuleId(" ++ id ++ ")"
  "RuleEngine \x7b inference_graph: " ++ e.graph.text ++ ", rules: [" ++
    String.intercalate ", " ids ++ "], subscription: SubscriptionId(" ++
    toString e.subscription ++ "), .. \x7d"

end RuleEngine

end Entail
