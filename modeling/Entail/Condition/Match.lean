import Entail.Condition
import Entail.Evaluator
import Entail.Pattern.Fit
/-!
# Matches

What matches a condition over a set of quads, and what comes out of it: the matches themselves, or
one row for each group of them. A network keeps up to date what is defined here for one set.
-/

namespace Entail

/-- Every quad that supports the token is held. -/
def Token.IsHeld (held : Quad → Prop) (t : Token) : Prop :=
  ∀ q ∈ t.facts, held q

namespace Condition

/-- Held quads match the conjunction under bindings that extend `b`. -/
def IsBlocked (held : Quad → Prop) (b : Bindings) (conjunction : List Pattern) : Prop :=
  ∃ inner : Bindings, ∃ facts : List Quad,
    inner.Extends b ∧ (∀ q ∈ facts, held q) ∧ Pattern.FitsAll inner conjunction facts

/-- The positive patterns stand for the facts of `t`, its bindings are those of their variables, and
no negative conjunction blocks it. -/
structure Admits (c : Condition) (held : Quad → Prop) (t : Token) : Prop where
  fits : Pattern.FitsAll t.bindings c.positives t.facts
  binds : ∀ v, t.bindings.contains v = true ↔ v ∈ c.positiveVariables
  unblocked : ∀ conjunction ∈ c.negatives, ¬ IsBlocked held t.bindings conjunction

/-- `t` is a match over the held quads. -/
def IsMatch (c : Condition) (held : Quad → Prop) (t : Token) : Prop :=
  t.IsHeld held ∧ c.Admits held t

/-- Held quads match the first `n` positive patterns together, and `b` binds what they bind. -/
def Reaches (c : Condition) (held : Quad → Prop) (n : Nat) (b : Bindings) : Prop :=
  ∃ facts : List Quad, (∀ q ∈ facts, held q) ∧ Pattern.FitsAll b (c.positives.take n) facts ∧
    ∀ v, b.contains v = true ↔ ∃ p ∈ c.positives.take n, v ∈ p.vars

end Condition

/-- `row` is the row of a group of tokens that satisfy `found`: those with the nodes of one key. -/
def Aggregation.IsRow (ev : Evaluator) (a : Aggregation) (found : Token → Prop) (row : Token) :
    Prop :=
  ∃ key : List Node, ∃ members : OrderedSet Token,
    members ≠ ∅ ∧
    (∀ t, t ∈ members ↔ found t ∧ a.groupBy.map t.bindings.get? = key.map some) ∧
    a.row ev key members = .ok row

/-- What comes out of a condition over the held quads. -/
def Condition.IsOutput (ev : Evaluator) (c : Condition) (held : Quad → Prop) (t : Token) : Prop :=
  match c.aggregation with
  | none => c.IsMatch held t
  | some a => a.IsRow ev (c.IsMatch held) t

end Entail
