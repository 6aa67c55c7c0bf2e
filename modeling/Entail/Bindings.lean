import Entail.Fault
import Entail.Ordered.Map
import Entail.Quad
/-!
# Bindings and tokens

The nodes bound to variables, combining two sets of bindings that agree where they overlap, and the
matches that carry bindings along with the quads that support them.
-/

namespace Entail

open Std

/-- A finite map from variables to nodes. -/
abbrev Bindings := OrderedMap Variable Node

namespace Bindings

/-- Add each pair to `b`, unless its variable is bound to another node there. -/
def extend? (b : Bindings) : List (Variable × Node) → Option Bindings
  | [] => some b
  | (v, n) :: rest =>
    match b.get? v with
    | some m => if m = n then extend? b rest else none
    | none => extend? (b.insert v n) rest

/-- The bindings of both, if no variable is bound to two nodes. The smaller side is added to the
larger one. -/
def merge? (a b : Bindings) : Option Bindings :=
  if b.size ≤ a.size then extend? a b.toList else extend? b a.toList

/-- The nodes bound to `vars`, in that order. -/
def joinKey (b : Bindings) (vars : List Variable) : Except Fault (List Node) :=
  vars.mapM fun v =>
    match b.get? v with
    | some n => .ok n
    | none => .error (.unboundJoinVariable v)

/-- The pairs in variable order, in braces. -/
def text (b : Bindings) : String :=
  let pairs := b.toList.map fun e => e.1.text ++ ": " ++ e.2.text
  "\x7b" ++ String.intercalate ", " pairs ++ "\x7d"

end Bindings

/-- A match: the bindings it made and the quads that support it, one for each pattern matched. -/
structure Token where
  bindings : Bindings
  facts : List Quad
deriving DecidableEq

namespace Token

/-- The match of no pattern at all. -/
def root : Token := ⟨∅, []⟩

def text (t : Token) : String :=
  "Token \x7b bindings: " ++ t.bindings.text ++ ", facts: " ++ toString t.facts.length ++ " \x7d"

private def key (t : Token) : Bindings × List Quad :=
  (t.bindings, t.facts)

private theorem eq_of_key (a b : Token) (h : a.key = b.key) : a = b := by
  cases a; cases b; simp_all [key]

instance : Ord Token := ordByKey key

instance : TransOrd Token := transOrd_ordByKey key

instance : LawfulEqOrd Token := lawfulEqOrd_ordByKey eq_of_key

end Token

end Entail
