import Entail.Rules.Engine
/-!
# Runs

How an engine gets from a change of the store to a state in which the stored conclusions are the
derivable ones. A run propagates the changes of the store one by one, and when none is left resolves
the suspects in a pass: it withdraws them and what depends on them from the networks, reinstates
those that are still derivable, and removes the others from the store.
-/

namespace Entail

/-- The state of a run: the engine, the store it works on, and the report so far. -/
structure RunState where
  engine : RuleEngine
  store : Store
  report : FlushReport

/-- A run that ended early, in the state it ended in. -/
structure Stopped where
  cause : StopCause
  state : RunState

/-- What a round of a run does. -/
inductive Round where
  | propagate (c : Change Quad)
  | withdraw (q : Quad)
  | reinstate (q : Quad)
deriving DecidableEq

namespace Round

def activity : Round → String
  | propagate _ => "propagation"
  | withdraw _ => "over-delete"
  | reinstate _ => "rederive"

/-- What the networks are told. -/
def change : Round → Change Quad
  | propagate c => c
  | withdraw q => .lost q
  | reinstate q => .gained q

end Round

/-- Whether a round belongs to a pass, and to which half of it. -/
inductive Phase where
  | outside
  | withdrawing
  | reinstating
deriving DecidableEq

def Round.phase : Round → Phase
  | propagate _ => .outside
  | withdraw _ => .withdrawing
  | reinstate _ => .reinstating

/-- How far a run has got. -/
inductive Progress where
  | idle
  /-- In a pass, with suspects left to withdraw. -/
  | withdrawing
  /-- In a pass, with these quads next to reinstate. -/
  | reinstating (todo : List Quad)
deriving DecidableEq

namespace RunState

/-- A fault ends the run in state `s`. -/
def attempt {α : Type} (s : RunState) (r : Except Fault α) : Except Stopped α :=
  r.mapError fun f => ⟨.fault f, s⟩

/-- Store a conclusion. -/
def materialize (s : RunState) (q : Quad) : Except Stopped RunState :=
  match s.store.insert q with
  | .error e => .error ⟨.error e, s⟩
  | .ok (changed, store) => .ok { s with
      store
      report := { s.report with materialized := s.report.materialized + changed.toNat } }

/-- Remove a conclusion from the store. -/
def retract (s : RunState) (q : Quad) : RunState :=
  let (changed, store) := s.store.remove q
  { s with
    store
    report := { s.report with retracted := s.report.retracted + changed.toNat } }

/-- Tell the network of one rule of a change. -/
def injectInto (c : Change Quad) (e : RuleEngine) (id : String) :
    Except Fault (List ConclusionFailure × RuleEngine) :=
  match e.slots.get? id with
  | none => .ok ([], e)
  | some slot =>
    match slot.network with
    | none => .ok ([], e)
    | some network => do
      let (p, network) ← network.update e.evaluator c
      let (failures, slot, support) ←
        { slot with network := some network }.absorb e.evaluator e.graph e.support p
      return (failures, { e with slots := e.slots.insert id slot, support })

/-- Tell all networks of a change, in the order of the rules. -/
def inject (s : RunState) (c : Change Quad) : Except Stopped RunState := do
  let (failures, engine) ← s.attempt (runStage (injectInto c) s.engine s.engine.slots.keys)
  return { s with engine, report := { s.report with failures := s.report.failures ++ failures } }

/-- Store a quad if it is supported. -/
def release (s : RunState) (q : Quad) : Except Stopped RunState :=
  if 0 < s.engine.support.total q then s.materialize q else .ok s

/-- A quad came to be supported. Outside a pass it is stored at once, within one at its end. -/
def settleRaised (phase : Phase) (s : RunState) (q : Quad) : Except Stopped RunState :=
  match phase with
  | .outside => s.release q
  | _ => .ok { s with engine := { s.engine with deferred := s.engine.deferred.insert q } }

/-- A quad lost a support. While quads are being withdrawn it becomes a suspect. Otherwise it leaves
the store if no support is left, and becomes a suspect if what is left may be a cycle. -/
def settleLowered (phase : Phase) (s : RunState) (q : Quad) : RunState :=
  let e := s.engine
  let suspected := { s with engine := { e with suspects := e.suspects.insert q } }
  let cleared := { s with engine := { e with suspects := e.suspects.erase q } }
  match phase with
  | .withdrawing => if q ∈ e.withdrawn then s else suspected
  | _ =>
    if e.support.total q = 0 then if q ∈ e.withdrawn then cleared else cleared.retract q
    else suspected

/-- Act on the changes of support since the last time. -/
def settle (phase : Phase) (s : RunState) : Except Stopped RunState := do
  let support := s.engine.support
  let s := { s with engine := { s.engine with support := support.settled } }
  let s ← support.raised.foldlM (settleRaised phase) s
  return support.lowered.foldl (settleLowered phase) s

/-- Move the subject of a round to where it belongs from now on. -/
def start (s : RunState) (round : Round) : RunState :=
  let e := s.engine
  let r := { s.report with rounds := s.report.rounds + 1 }
  match round with
  | .propagate _ => { s with report := r, engine := { e with pending := e.pending.tail } }
  | .withdraw q => { s with
      report := r
      engine := { e with suspects := e.suspects.erase q, withdrawn := e.withdrawn.insert q } }
  | .reinstate q => { s with
      report := { r with rederived := r.rederived + 1 }
      engine := { e with withdrawn := e.withdrawn.erase q } }

/-- Carry out one round. -/
def perform (s : RunState) (round : Round) : Except Stopped RunState := do
  let s ← (s.start round).inject round.change
  s.settle round.phase

/-- A suspect that is no longer stored, or already withdrawn, needs no further look. -/
def isStale (s : RunState) (q : Quad) : Bool :=
  s.engine.withdrawn.contains q || !s.store.contains q

/-- The state without the stale suspects in front, and the first suspect that remains. -/
def nextSuspect (s : RunState) : Option Quad × RunState :=
  let live := s.engine.suspects.toList.dropWhile s.isStale
  (live.head?, { s with engine := { s.engine with suspects := .ofList live } })

/-- The withdrawn quads that are still concluded. -/
def revived (s : RunState) : List Quad :=
  s.engine.withdrawn.toList.filter fun q => 0 < s.engine.support.total q

/-- End a pass: the quads left withdrawn leave the store, and those held back enter it. -/
def finalize (s : RunState) : Except Stopped RunState := do
  let e := s.engine
  let s := { s with engine := { e with withdrawn := ∅, deferred := ∅ } }
  e.deferred.toList.foldlM release (e.withdrawn.toList.foldl retract s)

/-- Take the changes waiting in the store, if all taken before have been dealt with. -/
def takeChanges (s : RunState) : RunState :=
  if s.engine.pending.isEmpty then
    let (changes, store) := s.store.drain s.engine.subscription
    { s with store, engine := { s.engine with pending := changes } }
  else s

/-- Outside a pass, changes come first; if there are none, the first suspect begins a pass. -/
def nextOutside (s : RunState) : RunState × Option (Round × Progress) :=
  let s := s.takeChanges
  match s.engine.pending with
  | c :: _ => (s, some (.propagate c, .idle))
  | [] =>
    match s.nextSuspect with
    | (some q, s) => (s, some (.withdraw q, .withdrawing))
    | (none, s) => (s, none)

/-- Reinstate what is left of `todo`, then whatever is still concluded. -/
def nextRevived (s : RunState) (todo : List Quad) : Option (Round × Progress) :=
  match if todo.isEmpty then s.revived else todo with
  | [] => none
  | q :: rest => some (.reinstate q, .reinstating rest)

/-- The next round of a pass: it withdraws the suspects and then reinstates. When no round is left,
the quads still withdrawn are not concluded any more. -/
def nextInPass (s : RunState) : Progress → RunState × Option (Round × Progress)
  | .reinstating todo => (s, s.nextRevived todo)
  | _ =>
    match s.nextSuspect with
    | (some q, s) => (s, some (.withdraw q, .withdrawing))
    | (none, s) => (s, s.nextRevived [])

/-- The next round and how far the run has got once it is done; none if all is quiet. A pass that
was cut short is taken up again before anything else. -/
def next (s : RunState) (progress : Progress) :
    Except Stopped (RunState × Option (Round × Progress)) :=
  if progress = .idle ∧ s.engine.isRederiving = false then .ok s.nextOutside
  else
    match s.nextInPass progress with
    | (s, some step) => .ok (s, some step)
    | (s, none) => s.finalize.map nextOutside

/-- Carry out rounds until all is quiet, at most `rounds` of them. -/
def run (s : RunState) (progress : Progress) (rounds : Nat) : Except Stopped RunState := do
  let (s, round) ← s.next progress
  match round with
  | none => return s
  | some (round, progress) =>
    match rounds with
    | 0 =>
      throw ⟨.error (.roundsExceeded s.engine.config.maxRounds (some round.activity)), s⟩
    | rounds + 1 =>
      let s ← s.perform round
      s.run progress rounds

/-- Run until all is quiet, within the configured number of rounds. -/
def runToQuiet (s : RunState) : Except Stopped RunState :=
  s.run .idle s.engine.config.maxRounds

end RunState

end Entail
