import Entail.Ordered.Key
import Entail.Rules.Engine
/-!
# Explanations

Why a quad is concluded, and how far the patterns of a rule get.
-/

namespace Entail

open Std

/-- One match that concludes a quad. -/
structure Derivation where
  rule : String
  bindings : Bindings
  premises : List Quad
deriving DecidableEq

namespace Derivation

private def key (d : Derivation) : String × Bindings × List Quad :=
  (d.rule, d.bindings, d.premises)

private theorem eq_of_key (a b : Derivation) (h : a.key = b.key) : a = b := by
  cases a; cases b; simp_all [key]

instance : Ord Derivation := ordByKey key

instance : TransOrd Derivation := transOrd_ordByKey key

instance : LawfulEqOrd Derivation := lawfulEqOrd_ordByKey eq_of_key

end Derivation

/-- The bindings that match a positive pattern and all those before it. -/
structure MatchStep where
  pattern : Pattern
  bindings : List Bindings
deriving DecidableEq

structure MatchStatus where
  rule : String
  active : Bool
  steps : List MatchStep
  /-- The bindings of the matches or rows of the whole condition. -/
  solutions : List Bindings
deriving DecidableEq

namespace MatchStatus

/-- The first pattern that no match of the ones before it gets past. -/
def blockedAt? (m : MatchStatus) : Option Nat :=
  m.steps.findIdx? fun step => step.bindings.isEmpty

def isMatching (m : MatchStatus) : Bool :=
  !m.solutions.isEmpty

end MatchStatus

namespace RuleSlot

/-- The matches of the rule that conclude `q`. -/
def derivations (slot : RuleSlot) (q : Quad) : List Derivation :=
  (slot.firings.toList.filter fun e => e.2.contains q).map fun e =>
    ⟨slot.rule.id, e.1.bindings, e.1.facts⟩

/-- The bindings at each positive pattern. -/
def steps (slot : RuleSlot) : List MatchStep :=
  slot.rule.condition.positives.zipIdx.map fun pi =>
    match slot.network with
    | some network => ⟨pi.1, (network.stepBindings pi.2).toList⟩
    | none => ⟨pi.1, []⟩

def solutions (slot : RuleSlot) : List Bindings :=
  match slot.network with
  | some network => network.tokens.map Token.bindings
  | none => []

end RuleSlot

namespace RuleEngine

/-- The matches of all rules that conclude `q`. -/
def explain (e : RuleEngine) (q : Quad) : List Derivation :=
  ascending (e.slots.values.flatMap fun slot => slot.derivations q)

def matchStatus (e : RuleEngine) (id : String) : Except Error MatchStatus :=
  match e.slots.get? id with
  | none => .error (.unknownRule id)
  | some slot => .ok ⟨id, slot.network.isSome, slot.steps, slot.solutions⟩

end RuleEngine

end Entail
