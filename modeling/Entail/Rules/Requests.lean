import Entail.Rules.Run
/-!
# Requests

What can be asked of a rule engine: to take in a rule or drop one, to switch one on or off, and to
catch up with the store. Every request that is not refused ends with a run.
-/

namespace Entail

/-- The engine and the store after a request, and its answer. -/
structure Outcome where
  engine : RuleEngine
  store : Store
  answer : Except StopCause FlushReport

def Outcome.ofRun : Except Stopped RunState → Outcome
  | .ok s => ⟨s.engine, s.store, .ok s.report⟩
  | .error stopped => ⟨stopped.state.engine, stopped.state.store, .error stopped.cause⟩

/-- The network of a well-formed rule, before it has seen a quad. -/
def Rule.compile (r : Rule) : Except Error Network := do
  r.validate
  Network.compile r.condition

namespace RunState

/-- The slot of a rule becomes `slot`. -/
def withSlot (s : RunState) (slot : RuleSlot) : RunState :=
  { s with engine := { s.engine with slots := s.engine.slots.insert slot.rule.id slot } }

/-- Let a network take in the store and draw the conclusions of the rule it belongs to. -/
def activate (s : RunState) (slot : RuleSlot) (network : Network) : Except Stopped RunState := do
  let e := s.engine
  let primed := do
    let (p, network) ← network.prime e.evaluator s.store.contents
    { slot with network := some network }.absorb e.evaluator e.graph e.support p
  let (failures, slot, support) ← s.attempt primed
  let s := { s with
    engine := { e with support }
    report := { s.report with failures := s.report.failures ++ failures } }
  (s.withSlot slot).settle .outside

/-- Drop the network of a rule and the support of its conclusions. -/
def deactivate (s : RunState) (slot : RuleSlot) : Except Stopped (RunState × RuleSlot) := do
  let (slot, support) ← s.attempt (slot.clear s.engine.support)
  return ({ s with engine := { s.engine with support } }, { slot with network := none })

end RunState

namespace RuleEngine

/-- The state in which a request begins. -/
def begin (e : RuleEngine) (store : Store) : RunState :=
  ⟨e, store, .empty⟩

/-- A request that changes nothing. -/
def refuse (e : RuleEngine) (store : Store) (error : Error) : Outcome :=
  ⟨e, store, .error (.error error)⟩

/-- Catch up with the store. -/
def flush (e : RuleEngine) (store : Store) : Outcome :=
  .ofRun (e.begin store).runToQuiet

/-- Take in a rule whose name is new. -/
def add (e : RuleEngine) (store : Store) (r : Rule) : Outcome :=
  if e.slots.contains r.id then e.refuse store (.duplicateRule r.id)
  else
    match r.compile with
    | .error error => e.refuse store error
    | .ok network =>
      let slot := RuleSlot.new r
      let s := (e.begin store).withSlot slot
      .ofRun do
        let s ← if r.active then s.activate slot network else .ok s
        s.runToQuiet

/-- Drop a rule and its conclusions. -/
def remove (e : RuleEngine) (store : Store) (id : String) : Outcome :=
  match e.slots.get? id with
  | none => e.refuse store (.unknownRule id)
  | some slot => .ofRun do
    let s := ({ e with slots := e.slots.erase id } : RuleEngine).begin store
    let (s, _) ← s.deactivate slot
    let s ← s.settle .outside
    s.runToQuiet

/-- Switch a rule on or off. -/
def setActive (e : RuleEngine) (store : Store) (id : String) (active : Bool) : Outcome :=
  match e.slots.get? id with
  | none => e.refuse store (.unknownRule id)
  | some old =>
    let s := e.begin store
    let slot := { old with rule := { old.rule with active } }
    if old.rule.active = active then .ofRun s.runToQuiet
    else if active then
      match slot.rule.compile with
      | .error error => .ofRun (.error ⟨.error error, s.withSlot slot⟩)
      | .ok network => .ofRun do
        let s ← (s.withSlot slot).activate slot network
        s.runToQuiet
    else .ofRun do
      let (s, slot) ← s.deactivate slot
      let s ← (s.withSlot slot).settle .outside
      s.runToQuiet

end RuleEngine

end Entail
