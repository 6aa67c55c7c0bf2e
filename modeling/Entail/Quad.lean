import Entail.Error
/-!
# Quads

A statement of three nodes in a graph, its written form, its order, which nodes may stand where, and
the filters that select quads.
-/

namespace Entail

open Std

structure Quad where
  graph : Node
  subject : Node
  predicate : Node
  object : Node
deriving DecidableEq

namespace Quad

/-- The graph is written last. -/
def text (q : Quad) : String :=
  q.subject.text ++ " " ++ q.predicate.text ++ " " ++ q.object.text ++ " " ++ q.graph.text ++ " ."

/-- Literals are confined to the object position, and only names can be predicates. -/
def validate (q : Quad) : Except Error Unit :=
  if q.graph.isLiteral then
    .error (.unsupportedNode ("literal " ++ q.graph.text ++ " in graph position"))
  else if q.subject.isLiteral then
    .error (.unsupportedNode ("literal " ++ q.subject.text ++ " in subject position"))
  else if q.predicate.isIri then .ok ()
  else .error (.unsupportedNode (q.predicate.text ++ " in predicate position"))

private def key (q : Quad) : Node × Node × Node × Node :=
  (q.graph, q.subject, q.predicate, q.object)

private theorem eq_of_key (a b : Quad) (h : a.key = b.key) : a = b := by
  cases a; cases b; simp_all [key]

instance : Ord Quad := ordByKey key

instance : TransOrd Quad := transOrd_ordByKey key

instance : LawfulEqOrd Quad := lawfulEqOrd_ordByKey eq_of_key

end Quad

/-- A node required at each position of a quad, or none. -/
structure QuadFilter where
  graph : Option Node
  subject : Option Node
  predicate : Option Node
  object : Option Node
deriving DecidableEq

namespace QuadFilter

/-- The filter that every quad passes. -/
def any : QuadFilter := ⟨none, none, none, none⟩

/-- `n` is the required node, if one is required. -/
def admits (required : Option Node) (n : Node) : Bool :=
  match required with
  | none => true
  | some r => r == n

def passes (f : QuadFilter) (q : Quad) : Bool :=
  admits f.graph q.graph && admits f.subject q.subject && admits f.predicate q.predicate &&
    admits f.object q.object

end QuadFilter

end Entail
