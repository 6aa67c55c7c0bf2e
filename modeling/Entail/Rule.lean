import Entail.Condition
import Entail.Evaluator
/-!
# Rules

A rule concludes quads from the matches of its condition. This module holds rules, what makes one
well-formed, and the quads that one match concludes.
-/

namespace Entail

open Std

/-- A node of a conclusion: fixed, bound by the match, or computed from it. -/
inductive ConclusionTerm where
  | node (n : Node)
  | variable (v : Variable)
  | computed (e : Expression)
deriving DecidableEq

structure Conclusion where
  subject : ConclusionTerm
  predicate : ConclusionTerm
  object : ConclusionTerm
deriving DecidableEq

structure Rule where
  id : String
  condition : Condition
  /-- Matches for which the guard is false conclude nothing. -/
  guard : Option Expression
  conclusions : List Conclusion
  active : Bool
deriving DecidableEq

namespace ConclusionTerm

def reads : ConclusionTerm → List Variable
  | .node _ => []
  | .variable v => [v]
  | .computed e => e.reads

def resolve (ev : Evaluator) (b : Bindings) : ConclusionTerm → Except Error Node
  | .node n => .ok n
  | .variable v =>
    match b.get? v with
    | some n => .ok n
    | none => .error (.unboundVariable v.name)
  | .computed e => (ev.evaluate e b).map Value.toNode

end ConclusionTerm

namespace Conclusion

def vars (c : Conclusion) : OrderedSet Variable :=
  .ofList (c.subject.reads ++ c.predicate.reads ++ c.object.reads)

/-- The concluded quad, if its terms resolve and may stand where they do. -/
def resolve (ev : Evaluator) (graph : Node) (b : Bindings) (c : Conclusion) :
    Except Error Quad := do
  let subject ← c.subject.resolve ev b
  let predicate ← c.predicate.resolve ev b
  let object ← c.object.resolve ev b
  let quad : Quad := ⟨graph, subject, predicate, object⟩
  quad.validate
  return quad

/-- What is wrong with the conclusion of a rule whose matches bind `bound`, if anything. -/
def problem? (bound : OrderedSet Variable) (c : Conclusion) : Option String :=
  match c.vars.toList.find? fun v => !bound.contains v with
  | some v => some ("conclusion reads unbound variable " ++ v.text)
  | none =>
    match c.subject, c.predicate with
    | .node (.literal l), _ => some ("literal " ++ l.text ++ " cannot be a subject")
    | _, .node (.iri _) => none
    | _, .node n => some (n.text ++ " cannot be a predicate")
    | _, _ => none

end Conclusion

/-- The quads that one match concludes, and what kept other conclusions from being drawn. -/
structure Instantiation where
  quads : List Quad
  failures : List Diagnostic

/-- Whether a match goes on to the conclusions. -/
inductive GuardOutcome where
  | passed
  | blocked
  | failed (e : Error)

namespace Rule

/-- The first thing wrong with the rule, if any. -/
def problem? (r : Rule) : Option String :=
  let bound := r.condition.outputVariables
  let guardReads := (r.guard.map fun e => e.vars.toList).getD []
  match r.condition.problem? with
  | some p => some p
  | none =>
    if r.conclusions = [] then some "rule has no conclusions"
    else
      match guardReads.find? fun v => !bound.contains v with
      | some v => some ("guard reads unbound variable " ++ v.text)
      | none => r.conclusions.findSome? (Conclusion.problem? bound)

def validate (r : Rule) : Except Error Unit :=
  match r.problem? with
  | some p => .error (.invalidRule r.id p)
  | none => .ok ()

/-- A rule without a guard lets every match pass. -/
def checkGuard (ev : Evaluator) (r : Rule) (b : Bindings) : GuardOutcome :=
  match r.guard with
  | none => .passed
  | some e =>
    match ev.evaluate e b with
    | .ok (.bool true) => .passed
    | .ok (.bool false) => .blocked
    | .ok v => .failed (.typeMismatch .bool v.type)
    | .error e => .failed e

/-- An error in a part of the rule. -/
def diagnose (r : Rule) (part : String) (e : Error) : Diagnostic :=
  ⟨e, some ⟨some r.id, [part]⟩⟩

/-- Each conclusion succeeds or fails on its own; a failing guard is one failure. -/
def instantiate (ev : Evaluator) (graph : Node) (r : Rule) (b : Bindings) : Instantiation :=
  match r.checkGuard ev b with
  | .blocked => ⟨[], []⟩
  | .failed e => ⟨[], [r.diagnose "guard" e]⟩
  | .passed =>
    let drawn := r.conclusions.zipIdx.map fun ci =>
      match ci.1.resolve ev graph b with
      | .ok q => .inl q
      | .error e => .inr (r.diagnose ("conclusion " ++ toString ci.2) e)
    ⟨drawn.filterMap Sum.getLeft?, drawn.filterMap Sum.getRight?⟩

end Rule

end Entail
