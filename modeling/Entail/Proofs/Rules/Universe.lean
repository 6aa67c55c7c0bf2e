import Entail.Proofs.Rules.Models
import Entail.Proofs.Rules.Positive
/-!
# Universes

Positive rules without computed terms conclude quads from the nodes they find and the nodes they name.
Over a finite set of nodes there are finitely many of them.
-/

namespace Entail

def Quad.nodes (q : Quad) : List Node :=
  [q.graph, q.subject, q.predicate, q.object]

/-- The quads that can be made of some nodes. -/
def quadsOver (nodes : List Node) : List Quad :=
  nodes.flatMap fun g => nodes.flatMap fun s => nodes.flatMap fun p => nodes.map fun o =>
    ⟨g, s, p, o⟩

theorem mem_quadsOver_iff {nodes : List Node} {q : Quad} :
    q ∈ quadsOver nodes ↔ ∀ n ∈ q.nodes, n ∈ nodes := by
  obtain ⟨g, s, p, o⟩ := q
  simp [quadsOver, Quad.nodes]

/-! ## The nodes of rules and matches -/

namespace ConclusionTerm

def nodes : ConclusionTerm → List Node
  | .node n => [n]
  | _ => []

/-- The term is fixed or bound by the match. -/
def IsPlain : ConclusionTerm → Prop
  | .computed _ => False
  | _ => True

instance : DecidablePred IsPlain
  | .computed _ => .isFalse id
  | .node _ => .isTrue trivial
  | .variable _ => .isTrue trivial

theorem IsPlain.resolve {ev : Evaluator} {b : Bindings} {t : ConclusionTerm} {n : Node}
    (h : t.IsPlain) (hn : t.resolve ev b = .ok n) : n ∈ t.nodes ∨ ∃ v, b.get? v = some n := by
  cases t with
  | computed e => exact absurd h id
  | node m =>
      obtain rfl := Except.ok.inj hn
      exact Or.inl List.mem_cons_self
  | «variable» v =>
      simp only [ConclusionTerm.resolve] at hn
      cases hv : b.get? v with
      | none =>
          rw [hv] at hn
          cases hn
      | some m =>
          rw [hv] at hn
          exact Or.inr ⟨v, hv.trans (congrArg some (Except.ok.inj hn))⟩

end ConclusionTerm

def Conclusion.terms (c : Conclusion) : List ConclusionTerm :=
  [c.subject, c.predicate, c.object]

namespace Rule

/-- The rule has neither negative conjunctions, nor an aggregation, nor computed conclusions. -/
def IsPlain (r : Rule) : Prop :=
  r.IsPositive ∧ ∀ c ∈ r.conclusions, ∀ t ∈ c.terms, t.IsPlain

instance (r : Rule) : Decidable r.IsPlain :=
  inferInstanceAs (Decidable ((r.condition.negatives = [] ∧ r.condition.aggregation = none) ∧
    ∀ c ∈ r.conclusions, ∀ t ∈ c.terms, t.IsPlain))

/-- The nodes that the conclusions name. -/
def nodes (r : Rule) : List Node :=
  r.conclusions.flatMap fun c => c.terms.flatMap ConclusionTerm.nodes

end Rule

namespace Pattern

theorem Fits.mem_nodes {b : Bindings} {p : Pattern} {q : Quad} (h : p.Fits b q) {v : Variable}
    (hv : v ∈ p.vars) {n : Node} (hn : b.get? v = some n) : n ∈ q.nodes := by
  have hsame : ∀ {t : Term} {m : Node}, t.Fits b m → t = .variable v → m = n := by
    rintro t m hfits rfl
    exact Option.some_inj.1 ((show b.get? v = some m from hfits).symm.trans hn)
  rcases mem_vars.1 hv with hv | hv | hv | hv
  · simp [Quad.nodes, hsame h.graph hv]
  · simp [Quad.nodes, hsame h.subject hv]
  · simp [Quad.nodes, hsame h.predicate hv]
  · simp [Quad.nodes, hsame h.object hv]

end Pattern

namespace Rule

variable {r : Rule} {ev : Evaluator} {graph : Node} {held : Quad → Prop} {t : Token}
  {nodes : List Node} {q : Quad}

theorem IsPositive.exists_mem_nodes (h : r.IsPositive) (hout : r.condition.IsOutput ev held t)
    {v : Variable} {n : Node} (hn : t.bindings.get? v = some n) :
    ∃ f ∈ t.facts, n ∈ f.nodes := by
  obtain ⟨_, hfits, hbinds⟩ := h.isOutput_iff.1 hout
  have hv := (hbinds v).1 (OrderedMap.contains_iff.2 ⟨n, hn⟩)
  obtain ⟨p, hp, hvars⟩ := Condition.mem_positiveVariables.1 hv
  obtain ⟨f, hf, hfit⟩ := hfits.exists_quad hp
  exact ⟨f, hf, hfit.mem_nodes hvars hn⟩

/-- What a plain rule concludes from quads over some nodes is a quad over these nodes. -/
theorem IsPlain.mem_quadsOver (h : r.IsPlain) (hgraph : graph ∈ nodes)
    (hrule : ∀ n ∈ r.nodes, n ∈ nodes) (hheld : ∀ x, held x → x ∈ quadsOver nodes)
    (hout : r.condition.IsOutput ev held t) (hc : r.Concludes ev graph t q) :
    q ∈ quadsOver nodes := by
  obtain ⟨_, c, hmem, hres⟩ := concludes_iff.1 hc
  obtain ⟨hsubject, hpredicate, hobject, rfl, _⟩ := Conclusion.resolve_eq_ok_iff.1 hres
  have hterm : ∀ term ∈ c.terms, ∀ n, term.resolve ev t.bindings = .ok n → n ∈ nodes := by
    intro term hterm n hn
    rcases (h.2 c hmem term hterm).resolve hn with hnode | ⟨v, hv⟩
    · exact hrule n (List.mem_flatMap.2 ⟨c, hmem, List.mem_flatMap.2 ⟨term, hterm, hnode⟩⟩)
    · obtain ⟨f, hf, hn⟩ := h.1.exists_mem_nodes hout hv
      exact mem_quadsOver_iff.1 (hheld f (hout.isHeld f hf)) n hn
  rw [mem_quadsOver_iff]
  intro n hn
  simp only [Quad.nodes, List.mem_cons, List.not_mem_nil, or_false] at hn
  rcases hn with rfl | rfl | rfl | rfl
  · exact hgraph
  · exact hterm c.subject (by simp [Conclusion.terms]) _ hsubject
  · exact hterm c.predicate (by simp [Conclusion.terms]) _ hpredicate
  · exact hterm c.object (by simp [Conclusion.terms]) _ hobject

end Rule

end Entail
