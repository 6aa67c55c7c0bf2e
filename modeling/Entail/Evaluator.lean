import Entail.Aggregate
import Entail.Bindings
import Entail.Expression.Evaluate
/-!
# Evaluators

How expressions get their values and groups of matches their summaries. The standard evaluator
computes an aggregate from the values of its argument in the members of the group.

The row of a group of matches holds the nodes that the members have in common, and the results
computed from all of them.
-/

namespace Entail

open Number

structure Evaluator where
  evaluate : Expression → Bindings → Except Error Value
  /-- The members repeat bindings, once for each match that has them. -/
  aggregate : Aggregate → List Bindings → Except Error Value

/-- A number of things, as an integer. -/
def Value.ofCount (n : Nat) : Except Error Value :=
  Value.integerOrOverflow (int64? n)

namespace AggregateFunction

/-- Keep `best` unless `v` compares to it as `wanted`. -/
def better (wanted : Ordering) (best v : Value) : Except Error Value :=
  (v.compare best).map fun o => if o = wanted then v else best

/-- The first of the values that no later one compares to as `wanted`. -/
def extremum (wanted : Ordering) : List Value → Except Error Value
  | [] => .error (.internal "aggregate over empty group")
  | v :: rest => rest.foldlM (better wanted) v

def total (values : List Value) : Except Error Value :=
  values.foldlM BinaryOp.add.arithmetic (.integer 0)

/-- The sum divided by the number of values, as a decimal; zero for no values. -/
def mean (values : List Value) : Except Error Value :=
  if values.isEmpty then .ok (.integer 0)
  else do
    let sum ← total values
    let count ← Value.ofCount values.length
    match ← sum.promote count with
    | .integers s c => return .decimal (nearestDecimal s / nearestDecimal c)
    | .decimals s c => return .decimal (s / c)

def ofValues (f : AggregateFunction) (values : List Value) : Except Error Value :=
  match f with
  | count => Value.ofCount values.length
  | sum => total values
  | min => extremum .lt values
  | max => extremum .gt values
  | avg => mean values
  | groupConcat separator =>
    (values.mapM Value.stringForm).map fun forms => .string (String.intercalate separator forms)

end AggregateFunction

namespace Aggregate

/-- The first of the pairs with each node. -/
def firstOfEach : List (Node × Value) → List (Node × Value)
  | [] => []
  | p :: rest => p :: (firstOfEach rest).filter fun q => q.1 != p.1

/-- The first of the values with each encoding. -/
def distinctValues (values : List Value) : List Value :=
  (firstOfEach (values.map fun v => (v.toNode, v))).map (·.2)

/-- The values of `e` in the members. Counting passes over members in which it has none; for any
other function the first error is the answer. -/
def argumentValues (evaluate : Expression → Bindings → Except Error Value)
    (f : AggregateFunction) (e : Expression) (members : List Bindings) :
    Except Error (List Value) :=
  if f = .count then .ok (members.filterMap fun b => (evaluate e b).toOption)
  else members.mapM (evaluate e)

/-- An aggregate without an argument counts the members. -/
def compute (evaluate : Expression → Bindings → Except Error Value) (a : Aggregate)
    (members : List Bindings) : Except Error Value :=
  match a.argument with
  | none =>
    Value.ofCount (if a.distinct then (OrderedSet.ofList members).size else members.length)
  | some e => do
    let values ← argumentValues evaluate a.function e members
    a.function.ofValues (if a.distinct then distinctValues values else values)

end Aggregate

namespace Evaluator

def standard : Evaluator where
  evaluate e b := e.evaluate b
  aggregate a members := a.compute (fun e b => e.evaluate b) members

end Evaluator

namespace Aggregation

/-- The bindings that a group has for its key. -/
def groupBindings (a : Aggregation) (key : List Node) : Bindings :=
  .ofList (a.groupBy.zip key)

/-- Bind each result in turn to its value over the members. -/
def bindResults (ev : Evaluator) (members : List Bindings) (row : Bindings) :
    List (Variable × Aggregate) → Except Error Bindings
  | [] => .ok row
  | (v, a) :: rest => do
    let value ← ev.aggregate a members
    bindResults ev members (row.insert v value.toNode) rest

/-- The row of a group: its key and its results over the members in order, supported by no quad in
particular. -/
def row (ev : Evaluator) (a : Aggregation) (key : List Node) (members : OrderedSet Token) :
    Except Error Token := do
  let bindings ← bindResults ev (members.toList.map Token.bindings) (a.groupBindings key) a.results
  return ⟨bindings, []⟩

end Aggregation

end Entail
