import Entail.Expression
/-!
# Aggregates

Summaries of a group of matches, and the grouping they belong to.
-/

namespace Entail

open Std

inductive AggregateFunction where
  | count
  | sum
  | min
  | max
  | avg
  /-- The text forms of the values with `separator` between them. -/
  | groupConcat (separator : String)
deriving DecidableEq

/-- A function of the values that `argument` has in the members of a group. With `distinct`, equal
values count once. -/
structure Aggregate where
  function : AggregateFunction
  argument : Option Expression
  distinct : Bool
deriving DecidableEq

/-- The variables that tell groups apart, and the aggregates computed for each group. -/
structure Aggregation where
  groupBy : List Variable
  results : List (Variable × Aggregate)
deriving DecidableEq

namespace AggregateFunction

private def key : AggregateFunction → Nat ⊕ String
  | groupConcat separator => .inr separator
  | f => .inl f.ctorIdx

private theorem eq_of_key (a b : AggregateFunction) (h : a.key = b.key) : a = b := by
  cases a <;> cases b <;> simp_all [key, AggregateFunction.ctorIdx]

instance : Ord AggregateFunction := ordByKey key

instance : TransOrd AggregateFunction := transOrd_ordByKey key

instance : LawfulEqOrd AggregateFunction := lawfulEqOrd_ordByKey eq_of_key

end AggregateFunction

namespace Aggregate

private def key (a : Aggregate) : AggregateFunction × Option Expression × Bool :=
  (a.function, a.argument, a.distinct)

private theorem eq_of_key (a b : Aggregate) (h : a.key = b.key) : a = b := by
  cases a; cases b; simp_all [key]

instance : Ord Aggregate := ordByKey key

instance : TransOrd Aggregate := transOrd_ordByKey key

instance : LawfulEqOrd Aggregate := lawfulEqOrd_ordByKey eq_of_key

end Aggregate

namespace Aggregation

private def key (a : Aggregation) : List Variable × List (Variable × Aggregate) :=
  (a.groupBy, a.results)

private theorem eq_of_key (a b : Aggregation) (h : a.key = b.key) : a = b := by
  cases a; cases b; simp_all [key]

instance : Ord Aggregation := ordByKey key

instance : TransOrd Aggregation := transOrd_ordByKey key

instance : LawfulEqOrd Aggregation := lawfulEqOrd_ordByKey eq_of_key

/-- The variables that a row of the aggregation binds. -/
def outputVariables (a : Aggregation) : OrderedSet Variable :=
  .ofList (a.groupBy ++ a.results.map (·.1))

/-- What is wrong with one result, given the variables bound by the patterns and those that already
name a column. -/
def resultProblem? (bound : OrderedSet Variable) (taken : List Variable) (v : Variable)
    (a : Aggregate) : Option String :=
  if v ∈ taken then some ("aggregate result variable " ++ v.text ++ " is bound twice")
  else
    match a.argument with
    | some e =>
      (e.vars.toList.find? fun x => !bound.contains x).map fun x =>
        "aggregate argument reads " ++ x.text ++ ", which is not bound by a positive pattern"
    | none =>
      if a.function = .count then none
      else some ("aggregate for " ++ v.text ++ " needs an argument")

def resultsProblem? (bound : OrderedSet Variable) (taken : List Variable) :
    List (Variable × Aggregate) → Option String
  | [] => none
  | (v, a) :: rest =>
    (resultProblem? bound taken v a).orElse fun _ => resultsProblem? bound (v :: taken) rest

/-- The first thing wrong with the aggregation over patterns that bind `bound`, if any. -/
def problem? (a : Aggregation) (bound : OrderedSet Variable) : Option String :=
  if a.results = [] then some "aggregation binds no aggregate"
  else
    match a.groupBy.find? fun v => !bound.contains v with
    | some v => some ("grouping variable " ++ v.text ++ " is not bound by a positive pattern")
    | none => resultsProblem? bound a.groupBy a.results

end Aggregation

end Entail
