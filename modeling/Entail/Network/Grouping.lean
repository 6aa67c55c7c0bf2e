import Entail.Change
import Entail.Evaluator
/-!
# Groupings

A stage that collects tokens into groups and passes on one row for each group. A group whose
aggregates cannot be computed has no row.
-/

namespace Entail

/-- The changes a stage passes on, and the groups whose row could not be computed. -/
structure Propagation where
  changes : List (Change Token)
  failures : List (Bindings × Error)
deriving DecidableEq

namespace Propagation

def empty : Propagation := ⟨[], []⟩

def isEmpty (p : Propagation) : Bool :=
  p.changes.isEmpty && p.failures.isEmpty

def append (p q : Propagation) : Propagation :=
  ⟨p.changes ++ q.changes, p.failures ++ q.failures⟩

end Propagation

structure Group where
  members : OrderedSet Token
  /-- The row last passed on, if there was one. -/
  row : Option Token
deriving DecidableEq

def Group.empty : Group := ⟨∅, none⟩

structure Grouping where
  aggregation : Aggregation
  groups : OrderedMap (List Node) Group
deriving DecidableEq

namespace Grouping

def new (a : Aggregation) : Grouping := ⟨a, ∅⟩

def group (g : Grouping) (key : List Node) : Group :=
  (g.groups.get? key).getD .empty

/-- File a token in its group or take it out. The key of the group is passed on. -/
def file (g : Grouping) (c : Change Token) : Except Fault (List (List Node) × Grouping) := do
  let key ← c.value.bindings.joinKey g.aggregation.groupBy
  let old := g.group key
  let members ←
    match c with
    | .gained t =>
      if t ∈ old.members then throw .memberActivatedTwice else pure (old.members.insert t)
    | .lost t =>
      if t ∈ old.members then pure (old.members.erase t) else throw .memberUnknown
  return ([key], { g with groups := g.groups.insert key { old with members } })

/-- Bring the row of a group up to date and drop the group if it has no members left. -/
def refresh (ev : Evaluator) (g : Grouping) (key : List Node) : Propagation × Grouping :=
  match g.groups.get? key with
  | none => (.empty, g)
  | some old =>
    if old.members.isEmpty then
      (⟨old.row.toList.map .lost, []⟩, { g with groups := g.groups.erase key })
    else
      let computed := g.aggregation.row ev key old.members
      let row := computed.toOption
      let failures :=
        match computed with
        | .ok _ => []
        | .error e => [(g.aggregation.groupBindings key, e)]
      let changes :=
        if row = old.row then [] else old.row.toList.map .lost ++ row.toList.map .gained
      (⟨changes, failures⟩, { g with groups := g.groups.insert key { old with row } })

def refreshAll (ev : Evaluator) (g : Grouping) : List (List Node) → Propagation × Grouping
  | [] => (.empty, g)
  | key :: rest =>
    let first := g.refresh ev key
    let others := refreshAll ev first.2 rest
    (first.1.append others.1, others.2)

/-- File the tokens, then bring the touched groups up to date in key order. -/
def receiveAll (ev : Evaluator) (g : Grouping) (incoming : List (Change Token)) :
    Except Fault (Propagation × Grouping) := do
  let (touched, g) ← runStage file g incoming
  return g.refreshAll ev (OrderedSet.ofList touched).toList

end Grouping

end Entail
