import Entail.Network
import Entail.Rule
import Entail.Rules.Support
/-!
# Firings

The matches of a rule with the quads each of them concluded. Matches come and go with the outputs of
the network of the rule, and the support of their conclusions with them.
-/

namespace Entail

/-- A rule that failed for a match or for a group of matches. -/
structure ConclusionFailure where
  rule : String
  bindings : Bindings
  diagnostic : Diagnostic
deriving DecidableEq

def ConclusionFailure.text (f : ConclusionFailure) : String :=
  "rule " ++ f.rule ++ " with " ++ f.bindings.text ++ ": " ++ f.diagnostic.error.message

/-- The quads concluded by each match. -/
abbrev Firings := OrderedMap Token (List Quad)

/-- A rule, its network if it is active, and its matches. -/
structure RuleSlot where
  rule : Rule
  network : Option Network
  firings : Firings
deriving DecidableEq

namespace RuleSlot

def new (r : Rule) : RuleSlot := ⟨r, none, ∅⟩

/-- Draw the conclusions of a new match, or give up those of a lost one. -/
def receive (ev : Evaluator) (graph : Node) (s : RuleSlot × Support) (c : Change Token) :
    Except Fault (List ConclusionFailure × RuleSlot × Support) :=
  let (slot, support) := s
  let id := slot.rule.id
  match c with
  | .gained t =>
    let drawn := slot.rule.instantiate ev graph t.bindings
    if slot.firings.contains t then .error .firingActivatedTwice
    else
      .ok (drawn.failures.map fun d => ⟨id, t.bindings, d⟩,
        { slot with firings := slot.firings.insert t drawn.quads },
        support.raiseAll id drawn.quads)
  | .lost t =>
    match slot.firings.get? t with
    | none => .error .firingUnknown
    | some quads => do
      let support ← support.lowerAll id quads
      return ([], { slot with firings := slot.firings.erase t }, support)

/-- Take in what came out of the network of the rule. -/
def absorb (ev : Evaluator) (graph : Node) (slot : RuleSlot) (support : Support) (p : Propagation) :
    Except Fault (List ConclusionFailure × RuleSlot × Support) := do
  let (failures, s) ← runStage (receive ev graph) (slot, support) p.changes
  let groups := p.failures.map fun f => ⟨slot.rule.id, f.1, ⟨f.2, none⟩⟩
  return (groups ++ failures, s)

/-- Give up every match. -/
def clear (slot : RuleSlot) (support : Support) : Except Fault (RuleSlot × Support) := do
  let support ← slot.firings.values.foldlM (fun s qs => s.lowerAll slot.rule.id qs) support
  return ({ slot with firings := ∅ }, support)

end RuleSlot

end Entail
