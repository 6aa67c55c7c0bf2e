import Entail.Aggregate
import Entail.Ordered.Key
import Entail.Pattern
/-!
# Conditions

Patterns that have to match together, conjunctions of patterns that must not match beside them, and
an optional aggregation of the matches.
-/

namespace Entail

open Std

structure Condition where
  positives : List Pattern
  /-- The conjunctions that block a match. Variables that no positive pattern binds are local to
  their conjunction. -/
  negatives : List (List Pattern)
  aggregation : Option Aggregation
deriving DecidableEq

namespace Condition

/-- The variables bound by the positive patterns. -/
def positiveVariables (c : Condition) : OrderedSet Variable :=
  c.positives.foldl (fun s p => s.union p.vars) ∅

/-- The variables bound by the rows or matches that come out. -/
def outputVariables (c : Condition) : OrderedSet Variable :=
  match c.aggregation with
  | some a => a.outputVariables
  | none => c.positiveVariables

/-- The first thing wrong with the condition, if any. -/
def problem? (c : Condition) : Option String :=
  if c.positives = [] ∧ c.negatives = [] then some "condition has no patterns"
  else if [] ∈ c.negatives then some "negative conjunction has no patterns"
  else c.aggregation.bind fun a => a.problem? c.positiveVariables

end Condition

/-- What conditions that differ only in the order of their patterns have in common. -/
structure ConditionKey where
  positives : List Pattern
  negatives : List (List Pattern)
  aggregation : Option Aggregation
deriving DecidableEq

namespace ConditionKey

private def key (k : ConditionKey) : List Pattern × List (List Pattern) × Option Aggregation :=
  (k.positives, k.negatives, k.aggregation)

private theorem eq_of_key (a b : ConditionKey) (h : a.key = b.key) : a = b := by
  cases a; cases b; simp_all [key]

instance : Ord ConditionKey := ordByKey key

instance : TransOrd ConditionKey := transOrd_ordByKey key

instance : LawfulEqOrd ConditionKey := lawfulEqOrd_ordByKey eq_of_key

end ConditionKey

/-- Patterns and conjunctions are sorted; the aggregation is kept as it is. -/
def Condition.key (c : Condition) : ConditionKey :=
  ⟨ascending c.positives, ascending (c.negatives.map ascending), c.aggregation⟩

end Entail
