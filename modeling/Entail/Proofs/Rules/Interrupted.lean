import Entail.Proofs.Rules.Convergence
/-!
# Interrupted runs

A run that is given up because it took too many rounds leaves behind what it had not dealt with: changes
that wait, suspects, quads that are withdrawn and quads that are held back. Later requests take it up
again, so that with positive rules the next answer is worth as much as if no run had been cut short.
-/

namespace Entail

variable {config : Config} {ev : Evaluator} {turn : Turn} {earlier : List Turn}
  {report : FlushReport}

/-- After the request the rules are those it asks for, the store holds the least model of the active
ones over the quads outside the graph of the conclusions, and the support of a quad is the number of
ways to conclude it in one step over that model. -/
structure Turn.HoldsLeastModel (config : Config) (ev : Evaluator) (t : Turn) : Prop where
  rule_eq : ∀ id, t.outcome.engine.rule? id = t.request.rule? t.engine id
  has_iff : ∀ q, t.outcome.store.contents.Has q ↔
    Derivable ev (.iri config.inferenceGraph) t.outcome.engine.activeRules
      (IsBase (.iri config.inferenceGraph) t.store.contents.Has) q
  count : ∀ q, IsCount
    (IsDrawn ev (.iri config.inferenceGraph) t.outcome.engine.activeRules
      (Derivable ev (.iri config.inferenceGraph) t.outcome.engine.activeRules
        (IsBase (.iri config.inferenceGraph) t.store.contents.Has)) q)
    (t.outcome.engine.support.total q)

theorem Turn.HoldsLeastModel.agree {config' : Config} {turn' : Turn}
    (h : turn.HoldsLeastModel config ev) (h' : turn'.HoldsLeastModel config' ev)
    (hgraph : config'.inferenceGraph = config.inferenceGraph)
    (hrules : turn'.outcome.engine.activeRules = turn.outcome.engine.activeRules)
    (hbase : IsBase (.iri config.inferenceGraph) turn'.store.contents.Has =
      IsBase (.iri config.inferenceGraph) turn.store.contents.Has) (q : Quad) :
    (turn'.outcome.store.contents.Has q ↔ turn.outcome.store.contents.Has q) ∧
      turn'.outcome.engine.support.total q = turn.outcome.engine.support.total q := by
  have hhas := h'.has_iff q
  have hcount := h'.count q
  rw [hgraph, hrules, hbase] at hhas hcount
  exact ⟨hhas.trans (h.has_iff q).symm, hcount.unique (h.count q)⟩

namespace History

/-- With positive rules all that matters is what rules looked at when they came to run. -/
theorem isSound_of_wakesApart (h : History config ev turn.engine turn.store earlier)
    (hpositive : ∀ t ∈ turn :: earlier, ∀ r, t.request = .add r → r.IsPositive)
    (hapart : ∀ t ∈ turn :: earlier, t.WakesApart) : IsSound (turn :: earlier) := by
  have hnext : History config ev turn.outcome.engine turn.outcome.store (turn :: earlier) :=
    .request turn.request h
  exact fun t ht => ⟨hnext.isSteady_of_isPositive hpositive t ht, hapart t ht⟩

theorem activeRules_isPositive {clean : Prop}
    (h : History config ev turn.engine turn.store earlier)
    (hpositive : ∀ t ∈ turn :: earlier, ∀ r, t.request = .add r → r.IsPositive)
    (hresult : turn.IsAnswered clean config ev) :
    ∀ r ∈ turn.outcome.engine.activeRules, r.IsPositive := by
  intro r hr
  have hnext : History config ev turn.outcome.engine turn.outcome.store (turn :: earlier) :=
    .request turn.request h
  exact hnext.rules (fun _ _ hr => hr) hpositive r.id r ((hresult.active_iff r).1 hr).2

/-- However many runs were cut short, an answer leaves the least model behind, unless a rule that came
to run looked at a quad that was withdrawn then. -/
theorem holdsLeastModel (h : History config ev turn.engine turn.store earlier)
    (hpositive : ∀ t ∈ turn :: earlier, ∀ r, t.request = .add r → r.IsPositive)
    (hapart : ∀ t ∈ turn :: earlier, t.WakesApart) (hanswer : turn.outcome.answer = .ok report) :
    turn.HoldsLeastModel config ev := by
  have hresult := h.isAnswered_of_isSound True
    (fun _ => h.isSound_of_wakesApart hpositive hapart) hanswer
  have hhas : ∀ q, turn.outcome.store.contents.Has q ↔
      Derivable ev (.iri config.inferenceGraph) turn.outcome.engine.activeRules
        (IsBase (.iri config.inferenceGraph) turn.store.contents.Has) q := by
    intro q
    rw [hresult.base_eq]
    exact (derivable_iff_stored (h.activeRules_isPositive hpositive hresult) hresult.holds
      (hresult.founded trivial)).symm
  have hstored := funext fun q => propext (hhas q)
  refine ⟨hresult.rule_eq, hhas, fun q => ?_⟩
  rw [← hstored]
  exact hresult.count q

end History

/-- Runs may be cut short at any point, by whatever limit, as long as no rule comes to run while a pass
is cut short. The next answer leaves the least model behind, with the store and the support that any
engine has whose runs were never cut short, if it has the same active rules and the same quads
outside the graph of the conclusions. -/
theorem least_model_despite_limits (h : History config ev turn.engine turn.store earlier)
    (hpositive : ∀ t ∈ turn :: earlier, ∀ r, t.request = .add r → r.IsPositive)
    (hwakes : ∀ t ∈ turn :: earlier, t.engine.isRederiving = true → ∀ r, ¬ t.Wakes r)
    (hanswer : turn.outcome.answer = .ok report) :
    turn.HoldsLeastModel config ev ∧
      ∀ config' turn' earlier' report', config'.inferenceGraph = config.inferenceGraph →
        History config' ev turn'.engine turn'.store earlier' →
        (∀ t ∈ turn' :: earlier', ∀ r, t.request = .add r → r.IsPositive) →
        (∀ t ∈ earlier', ¬ t.IsStopped) → turn'.outcome.answer = .ok report' →
        turn'.outcome.engine.activeRules = turn.outcome.engine.activeRules →
        IsBase (.iri config.inferenceGraph) turn'.store.contents.Has =
          IsBase (.iri config.inferenceGraph) turn.store.contents.Has →
        ∀ q, (turn'.outcome.store.contents.Has q ↔ turn.outcome.store.contents.Has q) ∧
          turn'.outcome.engine.support.total q = turn.outcome.engine.support.total q := by
  have hapart : ∀ t ∈ turn :: earlier, t.WakesApart := by
    intro t ht r hr
    by_cases hpass : t.engine.isRederiving = true
    · exact absurd hr (hwakes t ht hpass r)
    · rw [RuleEngine.isRederiving, Bool.or_eq_true, not_or, Bool.not_eq_true, Bool.not_eq_false',
        OrderedSet.isEmpty_iff] at hpass
      rw [hpass.1]
      exact r.condition.isApart_empty
  have hmodel := h.holdsLeastModel hpositive hapart hanswer
  refine ⟨hmodel, ?_⟩
  intro config' turn' earlier' report' hgraph h' hpositive' hlimit hanswer' hrules hbase
  have hapart' : ∀ t ∈ turn' :: earlier', t.WakesApart := by
    have hclean : IsClean earlier' :=
      h'.isClean_of_isPositive (fun t ht => hpositive' t (List.mem_cons_of_mem _ ht)) hlimit
    refine List.forall_mem_cons.2 ⟨fun r _ => ?_, fun t ht => (h'.isSound_of_isClean hclean t ht).2⟩
    rw [h'.withdrawn_eq hlimit]
    exact r.condition.isApart_empty
  exact hmodel.agree (h'.holdsLeastModel hpositive' hapart' hanswer') hgraph hrules hbase

/-! ## A pass that is cut short -/

def stating (subject value : String) : Quad :=
  ⟨.iri "g", .iri subject, .iri "p", .iri value⟩

/-- What has A has B, and what has B has B. Two things have A and lose it, and after three rounds one of
them has been withdrawn and the other is still a suspect. -/
def interruptedSession : Session :=
  List.foldl Session.carryOut (Session.start { Config.default with maxRounds := 3 } .standard [])
    [.request (.add (entail "direct" ["A"] "B")), .request (.add (entail "loop" ["B"] "B")),
      .mutate (.insert (stating "x" "A")), .request .flush,
      .mutate (.insert (stating "y" "A")), .request .flush,
      .mutate (.apply ⟨[], [stating "x" "A", stating "y" "A"]⟩), .request .flush]

theorem history_interruptedSession :
    History { Config.default with maxRounds := 3 } .standard interruptedSession.engine
      interruptedSession.store interruptedSession.turns :=
  Session.history_of_empty (by decide)

/-- The request switches no rule on. -/
def Turn.switchesNone (t : Turn) : Bool :=
  match t.request with
  | .add _ => false
  | .setActive _ _ => false
  | _ => true

theorem History.not_wakes {e : RuleEngine} {σ : Store} {turns : List Turn}
    (h : History config ev e σ turns) {t : Turn} (ht : t ∈ turns) (hnone : t.switchesNone = true)
    (r : Rule) : ¬ t.Wakes r := by
  intro hr
  rcases h.request_of_wakes ht hr with heq | ⟨id, heq⟩
  · rw [Turn.switchesNone, heq] at hnone
    cases hnone
  · rw [Turn.switchesNone, heq] at hnone
    cases hnone

/-- One of the two gets A back. The next flush ends the pass and is cut short again, with the loss and
the gain of what follows from it still to be propagated. -/
theorem least_model_of_interruptedSession :
    let e := interruptedSession.engine
    let σ := (Mutation.insert (stating "y" "A")).carryOut interruptedSession.store
    let resumed : Turn := ⟨e, σ, .flush⟩
    let turn : Turn := ⟨resumed.outcome.engine, resumed.outcome.store, .flush⟩
    e.isRederiving = true ∧ resumed.IsStopped ∧ (∃ report, turn.outcome.answer = .ok report) ∧
      turn.HoldsLeastModel { Config.default with maxRounds := 3 } .standard := by
  intro e σ resumed turn
  obtain ⟨hpass, hstopped, hflush, hadds, hrequests⟩ : e.isRederiving = true ∧ resumed.IsStopped ∧
      turn.outcome.answer.toBool = true ∧
      (turn :: resumed :: interruptedSession.turns).all Turn.addsPositive = true ∧
      (turn :: resumed :: interruptedSession.turns).all
        (fun t => !t.engine.isRederiving || t.switchesNone) = true := by
    decide +kernel
  obtain ⟨report, hanswer⟩ := Turn.exists_report hflush
  have hbefore : History { Config.default with maxRounds := 3 } .standard e σ
      interruptedSession.turns :=
    .mutate _ history_interruptedSession (by decide +kernel)
  have hhistory : History { Config.default with maxRounds := 3 } .standard turn.engine turn.store
      (resumed :: interruptedSession.turns) := .request .flush hbefore
  have hnext : History { Config.default with maxRounds := 3 } .standard turn.outcome.engine
      turn.outcome.store (turn :: resumed :: interruptedSession.turns) := .request .flush hhistory
  refine ⟨hpass, hstopped, ⟨report, hanswer⟩, (least_model_despite_limits hhistory
    (Turn.isPositive_of_all hadds) (fun t ht hrederiving => hnext.not_wakes ht ?_) hanswer).1⟩
  have hnone := List.all_eq_true.1 hrequests t ht
  rwa [hrederiving, Bool.not_true, Bool.false_or] at hnone

end Entail
