import Entail.Proofs.Rules.Quiet
/-!
# Rules in levels

With rules in levels the store holds, after every request that is answered, whatever the rules conclude
over it. It is the model of the rules exactly when everything in it has a finite derivation, and that
is so as long as no quad is reinstated that has lost its last support since it was listed.
-/

namespace Entail

/-! ## Which rules can feed which patterns -/

namespace ConclusionTerm

/-- The term may come to be a node that the pattern's term stands for. -/
def mayBe : ConclusionTerm → Term → Bool
  | .node n, .node m => n = m
  | _, _ => true

theorem mayBe_of_resolve {ev : Evaluator} {b b' : Bindings} {t : ConclusionTerm} {n : Node}
    {p : Term} (h : t.resolve ev b = .ok n) (hfits : p.Fits b' n) : t.mayBe p = true := by
  cases t with
  | «variable» v => cases p <;> rfl
  | computed e => cases p <;> rfl
  | node m =>
      have hm : m = n := Except.ok.inj h
      cases p with
      | any => rfl
      | «variable» v => rfl
      | node k =>
          have hk : k = n := hfits
          exact decide_eq_true (hm.trans hk.symm)

end ConclusionTerm

namespace Rule

variable {ev : Evaluator} {graph : Node} {r : Rule} {p : Pattern}

/-- Some conclusion has no fixed node where the pattern has another one. -/
def mayFeed (graph : Node) (r : Rule) (p : Pattern) : Bool :=
  r.conclusions.any fun c =>
    (ConclusionTerm.node graph).mayBe p.graph && c.subject.mayBe p.subject &&
      c.predicate.mayBe p.predicate && c.object.mayBe p.object

theorem Feeds.mayFeed (h : r.Feeds ev graph p) : r.mayFeed graph p = true := by
  obtain ⟨t, q, b, hc, hfits⟩ := h
  obtain ⟨_, c, hmem, hres⟩ := concludes_iff.1 hc
  obtain ⟨hsubject, hpredicate, hobject, rfl, _⟩ := Conclusion.resolve_eq_ok_iff.1 hres
  have hgraph : (ConclusionTerm.node q.graph).resolve ev t.bindings = .ok q.graph := rfl
  rw [Rule.mayFeed, List.any_eq_true]
  refine ⟨c, hmem, ?_⟩
  rw [ConclusionTerm.mayBe_of_resolve hgraph hfits.graph,
    ConclusionTerm.mayBe_of_resolve hsubject hfits.subject,
    ConclusionTerm.mayBe_of_resolve hpredicate hfits.predicate,
    ConclusionTerm.mayBe_of_resolve hobject hfits.object]
  rfl

/-- `r` is above the rules that may feed it, as far as it has to be. -/
def isAbove (graph : Node) (level : Rule → Nat) (rules : List Rule) (r : Rule) : Bool :=
  rules.all fun s =>
    (r.condition.positives.all fun p => !s.mayFeed graph p ||
      (if r.condition.aggregation = none then level s ≤ level r else level s < level r)) &&
    r.condition.negatives.all fun conjunction => conjunction.all fun p =>
      !s.mayFeed graph p || level s < level r

end Rule

theorem isStratified_of_isAbove {graph : Node} {rules : List Rule} {level : Rule → Nat}
    (ev : Evaluator) (h : rules.all (Rule.isAbove graph level rules) = true) :
    IsStratified ev graph rules level := by
  have hrule : ∀ r ∈ rules, ∀ s ∈ rules,
      (∀ p ∈ r.condition.positives, s.mayFeed graph p = true →
        if r.condition.aggregation = none then level s ≤ level r else level s < level r) ∧
      ∀ conjunction ∈ r.condition.negatives, ∀ p ∈ conjunction, s.mayFeed graph p = true →
        level s < level r := by
    intro r hr s hs
    have habove := List.all_eq_true.1 (List.all_eq_true.1 h r hr) s hs
    rw [Bool.and_eq_true, List.all_eq_true, List.all_eq_true] at habove
    constructor
    · intro p hp hfeed
      have hor := habove.1 p hp
      rw [hfeed] at hor
      simpa using hor
    · intro conjunction hmem p hp hfeed
      have hor := List.all_eq_true.1 (habove.2 conjunction hmem) p hp
      rw [hfeed] at hor
      simpa using hor
  constructor
  · intro r hr s hs p hp hfeeds
    have hle := (hrule r hr s hs).1 p hp hfeeds.mayFeed
    split at hle
    · rename_i hnone
      exact ⟨hle, fun hsome => absurd hnone hsome⟩
    · exact ⟨Nat.le_of_lt hle, fun _ => hle⟩
  · intro r hr s hs conjunction hmem p hp hfeeds
    exact (hrule r hr s hs).2 conjunction hmem p hp hfeeds.mayFeed

/-! ## The model in levels -/

variable {config : Config} {ev : Evaluator} {turn : Turn} {earlier : List Turn}
  {report : FlushReport} {level : Rule → Nat} {clean : Prop} {q : Quad}

namespace Turn.IsAnswered

theorem total_pos (h : turn.IsAnswered clean config ev) (hq : q.graph = .iri config.inferenceGraph)
    (hfounded : Founded ev (.iri config.inferenceGraph) turn.outcome.engine.activeRules
      turn.outcome.store.contents.Has q) : 0 < turn.outcome.engine.support.total q := by
  cases hfounded with
  | base _ hg => exact absurd hq hg
  | @byOutput r t _ hr hout _ hc =>
      obtain ⟨hguard, c, hmem, hres⟩ := Rule.concludes_iff.1 hc
      obtain ⟨i, hi⟩ := List.mem_iff_getElem?.1 hmem
      exact (h.count q).pos_iff.2 ⟨(r.id, t, i), r, hr, rfl, hout, hguard, c, hi, hres⟩

/-- The store is the model of the rules just in case everything in it has a finite derivation. -/
theorem model_iff_founded (h : turn.IsAnswered clean config ev)
    (hstrat : IsStratified ev (.iri config.inferenceGraph) turn.outcome.engine.activeRules level) :
    (∀ q, turn.outcome.store.contents.Has q ↔
        StratifiedModel ev (.iri config.inferenceGraph) turn.outcome.engine.activeRules level
          (IsBase (.iri config.inferenceGraph) turn.store.contents.Has) q) ↔
      ∀ q, turn.outcome.store.contents.Has q →
        Founded ev (.iri config.inferenceGraph) turn.outcome.engine.activeRules
          turn.outcome.store.contents.Has q := by
  rw [h.base_eq]
  constructor
  · exact fun hmodel q hq => founded_of_stratifiedModel hstrat (fun q => (hmodel q).symm) hq
  · exact fun hfounded q => (stratifiedModel_iff_stored hstrat h.holds hfounded).symm

end Turn.IsAnswered

/-- After any history of requests and of changes outside the graph of the conclusions, with active
rules in levels: the store is the model of the rules over the quads outside that graph just in case
everything in it has a finite derivation. It is, and every conclusion is supported, if no request was
cut short and none reinstated an unsupported quad. -/
theorem store_eq_stratified_model_iff (h : History config ev turn.engine turn.store earlier)
    (hanswer : turn.outcome.answer = .ok report)
    (hstrat : IsStratified ev (.iri config.inferenceGraph) turn.outcome.engine.activeRules level) :
    (∀ id, turn.outcome.engine.rule? id = turn.request.rule? turn.engine id) ∧
      ((∀ q, turn.outcome.store.contents.Has q ↔
          StratifiedModel ev (.iri config.inferenceGraph) turn.outcome.engine.activeRules level
            (IsBase (.iri config.inferenceGraph) turn.store.contents.Has) q) ↔
        ∀ q, turn.outcome.store.contents.Has q →
          Founded ev (.iri config.inferenceGraph) turn.outcome.engine.activeRules
            turn.outcome.store.contents.Has q) ∧
      (IsClean (turn :: earlier) → ∀ q,
        (turn.outcome.store.contents.Has q ↔
          StratifiedModel ev (.iri config.inferenceGraph) turn.outcome.engine.activeRules level
            (IsBase (.iri config.inferenceGraph) turn.store.contents.Has) q) ∧
        (turn.outcome.store.contents.Has q → q.graph = .iri config.inferenceGraph →
          0 < turn.outcome.engine.support.total q)) := by
  have hresult := h.isAnswered (IsClean (turn :: earlier))
    (fun hclean t ht => hclean t (List.mem_cons_of_mem _ ht))
    (fun hclean => (hclean turn List.mem_cons_self).2) hanswer
  refine ⟨hresult.rule_eq, hresult.model_iff_founded hstrat, fun hclean q => ⟨?_, ?_⟩⟩
  · exact (hresult.model_iff_founded hstrat).2 (hresult.founded hclean) q
  · exact fun hq hgraph => hresult.total_pos hgraph (hresult.founded hclean q hq)

/-! ## Two sessions -/

/-- Whatever has the value for the property is of the kind, unless it is of an excluding kind. -/
def classify (id property value : String) (excluding : Option String) (kind : String) : Rule where
  id := id
  condition := ⟨[⟨.any, .variable ⟨"x"⟩, .node (.iri property), .node (.iri value)⟩],
    excluding.toList.map fun other =>
      [⟨.any, .variable ⟨"x"⟩, .node (.iri "is"), .node (.iri other)⟩], none⟩
  guard := none
  conclusions := [⟨.variable ⟨"x"⟩, .node (.iri "is"), .node (.iri kind)⟩]
  active := true

/-- A quad about the value that something has for a property. -/
def hasValue (value : String) : Quad :=
  ⟨.iri "g", .iri "x", .iri "p", .iri value⟩

/-- Rules with negation are above the others. -/
def byNegation (r : Rule) : Nat :=
  r.condition.negatives.length

private theorem isClean_of_all {turns : List Turn}
    (h : turns.all (fun t => t.outcome.answer.toBool && t.isSteady) = true) : IsClean turns := by
  intro t ht
  have hturn := List.all_eq_true.1 h t ht
  rw [Bool.and_eq_true] at hturn
  exact ⟨Turn.not_isStopped hturn.1, hturn.2⟩

/-- Something is of one kind until it gets a value that makes it one of the excluding kind. -/
theorem stratified_model_of_classify :
    let s := List.foldl Session.carryOut (Session.start .default .standard [])
      [.request (.add (classify "a" "p" "1" none "A")),
        .request (.add (classify "b" "p" "2" (some "A") "B")),
        .mutate (.insert (hasValue "2")), .request .flush, .mutate (.insert (hasValue "1"))]
    let turn : Turn := ⟨s.engine, s.store, .flush⟩
    (∃ report, turn.outcome.answer = .ok report) ∧ IsClean (turn :: s.turns) ∧
      IsStratified .standard (.iri Config.default.inferenceGraph) turn.outcome.engine.activeRules
        byNegation ∧
      ∀ q, turn.outcome.store.contents.Has q ↔
        StratifiedModel .standard (.iri Config.default.inferenceGraph)
          turn.outcome.engine.activeRules byNegation
          (IsBase (.iri Config.default.inferenceGraph) turn.store.contents.Has) q := by
  intro s turn
  have hhistory : History .default .standard turn.engine turn.store s.turns :=
    Session.history_of_empty (by decide)
  have hflush : turn.outcome.answer.toBool = true := by decide +kernel
  obtain ⟨report, hanswer⟩ := Turn.exists_report hflush
  have hclean : IsClean (turn :: s.turns) := isClean_of_all (by decide +kernel)
  have hstrat : IsStratified .standard (.iri Config.default.inferenceGraph)
      turn.outcome.engine.activeRules byNegation :=
    isStratified_of_isAbove .standard (by decide +kernel)
  have hmodel := (store_eq_stratified_model_iff hhistory hanswer hstrat).2.2 hclean
  exact ⟨⟨report, hanswer⟩, hclean, hstrat, fun q => (hmodel q).1⟩

/-- Something of kinds A, B and D loses the values it is of those kinds for, but for one that makes it
an A. Its being a B is taken back with its being a D, listed as supported while it is not yet an A
again, and reinstated when it is. -/
theorem unsupported_conclusion_remains :
    let s := List.foldl Session.carryOut (Session.start .default .standard [])
      [.request (.add (classify "a1" "p" "1" none "A")),
        .request (.add (classify "a2" "p" "2" none "A")),
        .request (.add (classify "b1" "p" "3" none "B")),
        .request (.add (classify "b2" "is" "D" none "B")),
        .request (.add (classify "b3" "p" "4" (some "A") "B")),
        .request (.add (classify "d1" "p" "6" none "D")),
        .request (.add (classify "d2" "is" "D" none "D")),
        .mutate (.apply ⟨[hasValue "1", hasValue "2", hasValue "3", hasValue "4", hasValue "6"],
          []⟩),
        .request .flush,
        .mutate (.apply ⟨[], [hasValue "1", hasValue "3", hasValue "6"]⟩)]
    let turn : Turn := ⟨s.engine, s.store, .flush⟩
    let leftover : Quad :=
      ⟨.iri Config.default.inferenceGraph, .iri "x", .iri "is", .iri "B"⟩
    History .default .standard turn.engine turn.store s.turns ∧
      (∀ t ∈ turn :: s.turns, ¬ t.IsStopped) ∧
      (∃ report, turn.outcome.answer = .ok report) ∧
      IsStratified .standard (.iri Config.default.inferenceGraph) turn.outcome.engine.activeRules
        byNegation ∧
      turn.outcome.store.contents.Has leftover ∧
      turn.outcome.engine.support.total leftover = 0 ∧
      ¬ ∀ q, turn.outcome.store.contents.Has q ↔
        StratifiedModel .standard (.iri Config.default.inferenceGraph)
          turn.outcome.engine.activeRules byNegation
          (IsBase (.iri Config.default.inferenceGraph) turn.store.contents.Has) q := by
  intro s turn leftover
  have hhistory : History .default .standard turn.engine turn.store s.turns :=
    Session.history_of_empty (by decide)
  obtain ⟨hanswers, habove, hhas, htotal⟩ :
      (turn :: s.turns).all (fun t => t.outcome.answer.toBool) = true ∧
      turn.outcome.engine.activeRules.all (Rule.isAbove (.iri Config.default.inferenceGraph)
        byNegation turn.outcome.engine.activeRules) = true ∧
      turn.outcome.store.contents.contains leftover = true ∧
      turn.outcome.engine.support.total leftover = 0 := by
    decide +kernel
  have hlimit : ∀ t ∈ turn :: s.turns, ¬ t.IsStopped :=
    fun t ht => Turn.not_isStopped (List.all_eq_true.1 hanswers t ht)
  obtain ⟨report, hanswer⟩ :=
    Turn.exists_report (List.all_eq_true.1 hanswers turn List.mem_cons_self)
  have hstrat : IsStratified .standard (.iri Config.default.inferenceGraph)
      turn.outcome.engine.activeRules byNegation := isStratified_of_isAbove .standard habove
  refine ⟨hhistory, hlimit, ⟨report, hanswer⟩, hstrat, hhas, htotal, fun hmodel => ?_⟩
  have hresult := hhistory.isAnswered False False.elim False.elim hanswer
  have hfounded := (hresult.model_iff_founded hstrat).1 hmodel leftover hhas
  have hpos := hresult.total_pos rfl hfounded
  rw [htotal] at hpos
  exact Nat.lt_irrefl 0 hpos

end Entail
