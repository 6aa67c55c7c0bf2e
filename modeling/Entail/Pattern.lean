import Entail.Bindings
import Entail.Ordered.Set
import Entail.Quad
/-!
# Patterns

A quad with variables and wildcards. Matching it against a quad binds its variables; a variable that
stands in two positions has to meet the same node in both.
-/

namespace Entail

open Std

inductive Term where
  | node (n : Node)
  | variable (v : Variable)
  | any
deriving DecidableEq

namespace Term

def var? : Term → Option Variable
  | .variable v => some v
  | _ => none

def node? : Term → Option Node
  | .node n => some n
  | _ => none

def text : Term → String
  | .node n => n.text
  | .variable v => v.text
  | .any => "_"

/-- `b` with what matching the term against `n` binds. -/
def bind? (t : Term) (n : Node) (b : Bindings) : Option Bindings :=
  match t with
  | .any => some b
  | .node m => if m = n then some b else none
  | .variable v =>
    match b.get? v with
    | some m => if m = n then some b else none
    | none => some (b.insert v n)

private def key : Term → Node ⊕ Variable ⊕ Nat
  | .node n => .inl n
  | .variable v => .inr (.inl v)
  | .any => .inr (.inr 0)

private theorem eq_of_key (a b : Term) (h : a.key = b.key) : a = b := by
  cases a <;> cases b <;> simp_all [key]

/-- Nodes come before variables and variables before the wildcard. -/
instance : Ord Term := ordByKey key

instance : TransOrd Term := transOrd_ordByKey key

instance : LawfulEqOrd Term := lawfulEqOrd_ordByKey eq_of_key

end Term

structure Pattern where
  graph : Term
  subject : Term
  predicate : Term
  object : Term
deriving DecidableEq

namespace Pattern

def vars (p : Pattern) : OrderedSet Variable :=
  .ofList ([p.graph, p.subject, p.predicate, p.object].filterMap Term.var?)

/-- The bindings that make the pattern equal to the quad, apart from wildcards. -/
def match? (p : Pattern) (q : Quad) : Option Bindings := do
  let b ← p.graph.bind? q.graph ∅
  let b ← p.subject.bind? q.subject b
  let b ← p.predicate.bind? q.predicate b
  p.object.bind? q.object b

/-- The nodes the pattern requires. -/
def filter (p : Pattern) : QuadFilter :=
  ⟨p.graph.node?, p.subject.node?, p.predicate.node?, p.object.node?⟩

/-- The graph is written last. -/
def text (p : Pattern) : String :=
  "[" ++ p.subject.text ++ " " ++ p.predicate.text ++ " " ++ p.object.text ++ " " ++
    p.graph.text ++ "]"

private def key (p : Pattern) : Term × Term × Term × Term :=
  (p.graph, p.subject, p.predicate, p.object)

private theorem eq_of_key (a b : Pattern) (h : a.key = b.key) : a = b := by
  cases a; cases b; simp_all [key]

instance : Ord Pattern := ordByKey key

instance : TransOrd Pattern := transOrd_ordByKey key

instance : LawfulEqOrd Pattern := lawfulEqOrd_ordByKey eq_of_key

end Pattern

end Entail
