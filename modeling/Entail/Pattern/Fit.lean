import Entail.Pattern
/-!
# Fits

When bindings make a pattern equal to a quad. This says what matching is for, without saying how the
bindings are found.
-/

namespace Entail

/-- `b` binds every variable that `c` binds, to the same node. -/
def Bindings.Extends (b c : Bindings) : Prop :=
  ∀ v n, c.get? v = some n → b.get? v = some n

/-- Under `b` the term stands for the node; the wildcard stands for any. -/
def Term.Fits (b : Bindings) : Term → Node → Prop
  | .any, _ => True
  | .node m, n => m = n
  | .variable v, n => b.get? v = some n

instance Term.decidableFits (b : Bindings) : (t : Term) → (n : Node) → Decidable (t.Fits b n)
  | .any, _ => .isTrue trivial
  | .node m, n => inferInstanceAs (Decidable (m = n))
  | .variable v, n => inferInstanceAs (Decidable (b.get? v = some n))

namespace Pattern

/-- Under `b` the pattern stands for the quad. -/
structure Fits (b : Bindings) (p : Pattern) (q : Quad) : Prop where
  graph : p.graph.Fits b q.graph
  subject : p.subject.Fits b q.subject
  predicate : p.predicate.Fits b q.predicate
  object : p.object.Fits b q.object

/-- Under `b` the patterns stand for the quads, one for one. -/
def FitsAll (b : Bindings) : List Pattern → List Quad → Prop
  | [], [] => True
  | p :: ps, q :: qs => p.Fits b q ∧ FitsAll b ps qs
  | _, _ => False

end Pattern

end Entail
