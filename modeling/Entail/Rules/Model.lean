import Entail.Condition.Match
import Entail.Rule
/-!
# Models

The quads that rules conclude, said once and for all instead of change by change. Rules without
negation and aggregation have a least model; rules in levels are evaluated level by level, each
looking at the finished levels below for what is absent and for what is summed up.
-/

namespace Entail

namespace Rule

/-- The match or row `t` concludes `q`. -/
def Concludes (ev : Evaluator) (graph : Node) (r : Rule) (t : Token) (q : Quad) : Prop :=
  q ∈ (r.instantiate ev graph t.bindings).quads

/-- The rule has neither negative conjunctions nor an aggregation. -/
def IsPositive (r : Rule) : Prop :=
  r.condition.negatives = [] ∧ r.condition.aggregation = none

/-- Some match of the rule could conclude a quad that the pattern stands for. -/
def Feeds (ev : Evaluator) (graph : Node) (r : Rule) (p : Pattern) : Prop :=
  ∃ t q b, r.Concludes ev graph t q ∧ p.Fits b q

end Rule

/-- The quads with a finite derivation from settled ones. Negative conjunctions and aggregations see
the settled quads only. -/
inductive Derivable (ev : Evaluator) (graph : Node) (rules : List Rule) (settled : Quad → Prop) :
    Quad → Prop where
  | settled {q : Quad} : settled q → Derivable ev graph rules settled q
  | byMatch {r : Rule} {t : Token} {q : Quad} :
    r ∈ rules → r.condition.aggregation = none →
    (∀ f ∈ t.facts, Derivable ev graph rules settled f) → r.condition.Admits settled t →
    r.Concludes ev graph t q → Derivable ev graph rules settled q
  | byRow {r : Rule} {a : Aggregation} {row : Token} {q : Quad} :
    r ∈ rules → r.condition.aggregation = some a →
    a.IsRow ev (r.condition.IsMatch settled) row → r.Concludes ev graph row q →
    Derivable ev graph rules settled q

/-- `model` holds the settled quads and everything that rules conclude from what it holds. -/
structure IsClosed (ev : Evaluator) (graph : Node) (rules : List Rule) (settled : Quad → Prop)
    (model : Quad → Prop) : Prop where
  base : ∀ q, settled q → model q
  byMatch : ∀ r ∈ rules, r.condition.aggregation = none → ∀ t : Token, t.IsHeld model →
    r.condition.Admits settled t → ∀ q, r.Concludes ev graph t q → model q
  byRow : ∀ r ∈ rules, ∀ a, r.condition.aggregation = some a → ∀ row,
    a.IsRow ev (r.condition.IsMatch settled) row → ∀ q, r.Concludes ev graph row q → model q

theorem isClosed_derivable (ev : Evaluator) (graph : Node) (rules : List Rule)
    (settled : Quad → Prop) :
    IsClosed ev graph rules settled (Derivable ev graph rules settled) where
  base _ := .settled
  byMatch _ hr ha _ held admits _ := .byMatch hr ha held admits
  byRow _ hr _ ha _ hrow _ := .byRow hr ha hrow

/-- The derivable quads are the least closed set. -/
theorem IsClosed.of_derivable {ev : Evaluator} {graph : Node} {rules : List Rule}
    {settled model : Quad → Prop} (h : IsClosed ev graph rules settled model) {q : Quad}
    (hq : Derivable ev graph rules settled q) : model q := by
  induction hq with
  | settled hs => exact h.base _ hs
  | byMatch hr ha _ admits hc held => exact h.byMatch _ hr ha _ held admits _ hc
  | byRow hr ha hrow hc => exact h.byRow _ hr _ ha _ hrow _ hc

/-- A rule has at least the level of the rules that feed its positive patterns, and a higher one
than those that feed patterns it uses for negation or aggregation. -/
structure IsStratified (ev : Evaluator) (graph : Node) (rules : List Rule) (level : Rule → Nat) :
    Prop where
  positive : ∀ r ∈ rules, ∀ s ∈ rules, ∀ p ∈ r.condition.positives,
    s.Feeds ev graph p →
    level s ≤ level r ∧ (r.condition.aggregation ≠ none → level s < level r)
  negative : ∀ r ∈ rules, ∀ s ∈ rules, ∀ conjunction ∈ r.condition.negatives, ∀ p ∈ conjunction,
    s.Feeds ev graph p → level s < level r

/-- The quads that the rules below level `n` conclude from `base`, level by level. -/
def Stratum (ev : Evaluator) (graph : Node) (rules : List Rule) (level : Rule → Nat)
    (base : Quad → Prop) : Nat → Quad → Prop
  | 0 => base
  | n + 1 =>
    Derivable ev graph (rules.filter fun r => level r = n) (Stratum ev graph rules level base n)

/-- The model of rules in levels. -/
def StratifiedModel (ev : Evaluator) (graph : Node) (rules : List Rule) (level : Rule → Nat)
    (base : Quad → Prop) (q : Quad) : Prop :=
  ∃ n, Stratum ev graph rules level base n q

end Entail
