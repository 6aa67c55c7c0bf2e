import Entail.Proofs.Rules.Interrupted
/-!
# Rules that come to run while a pass is cut short

A rule that comes to run reads the store, in which withdrawn quads are still stored. If it looks at one
of them its conclusions rest on that quad, and may be what brings it back. Then the store ends up with
more than the least model: with quads that have no finite derivation.
-/

namespace Entail

variable {config : Config} {ev : Evaluator} {turn : Turn} {earlier : List Turn}
  {report : FlushReport}

/-- Runs may be cut short and rules come to run at any point. After an answer the support counts the
ways to conclude a quad over the store, and the store holds the least model. It holds nothing else
exactly when everything it holds has a finite derivation; and that is so if no rule that came to run
looked at a quad that was withdrawn then. -/
theorem store_eq_least_model_iff_founded (h : History config ev turn.engine turn.store earlier)
    (hpositive : ∀ t ∈ turn :: earlier, ∀ r, t.request = .add r → r.IsPositive)
    (hanswer : turn.outcome.answer = .ok report) :
    (∀ id, turn.outcome.engine.rule? id = turn.request.rule? turn.engine id) ∧
      (∀ q, IsCount
        (IsDrawn ev (.iri config.inferenceGraph) turn.outcome.engine.activeRules
          turn.outcome.store.contents.Has q)
        (turn.outcome.engine.support.total q)) ∧
      (∀ q, Derivable ev (.iri config.inferenceGraph) turn.outcome.engine.activeRules
          (IsBase (.iri config.inferenceGraph) turn.store.contents.Has) q →
        turn.outcome.store.contents.Has q) ∧
      (turn.HoldsLeastModel config ev ↔ ∀ q, turn.outcome.store.contents.Has q →
        Founded ev (.iri config.inferenceGraph) turn.outcome.engine.activeRules
          turn.outcome.store.contents.Has q) ∧
      ((∀ t ∈ turn :: earlier, t.WakesApart) → turn.HoldsLeastModel config ev) := by
  have hresult := h.isAnswered_of_isSound False False.elim hanswer
  have hpos := h.activeRules_isPositive hpositive hresult
  have hmodel : ∀ q, Derivable ev (.iri config.inferenceGraph) turn.outcome.engine.activeRules
      (IsBase (.iri config.inferenceGraph) turn.store.contents.Has) q →
      turn.outcome.store.contents.Has q := by
    intro q hq
    rw [hresult.base_eq] at hq
    exact HoldsConclusions.of_derivable hpos hresult.holds hq
  refine ⟨hresult.rule_eq, hresult.count, hmodel, ⟨fun hleast q hq => ?_, fun hfounded => ?_⟩,
    fun hapart => h.holdsLeastModel hpositive hapart hanswer⟩
  · have hderivable := (hleast.has_iff q).1 hq
    rw [hresult.base_eq] at hderivable
    exact HoldsConclusions.founded hpos hresult.holds hderivable
  · have hhas : ∀ q, turn.outcome.store.contents.Has q ↔
        Derivable ev (.iri config.inferenceGraph) turn.outcome.engine.activeRules
          (IsBase (.iri config.inferenceGraph) turn.store.contents.Has) q := by
      refine fun q => ⟨fun hq => ?_, hmodel q⟩
      rw [hresult.base_eq]
      exact (hfounded q hq).derivable hpos
    have hstored := funext fun q => propext (hhas q)
    refine ⟨hresult.rule_eq, hhas, fun q => ?_⟩
    rw [← hstored]
    exact hresult.count q

/-! ## Two rules, added to a pass that is cut short -/

/-- The request switches no rule on, or takes in one that looks at nothing that is withdrawn. -/
def Turn.addsApart (t : Turn) : Bool :=
  match t.request with
  | .add r => decide (r.condition.IsApart t.engine.withdrawn)
  | .setActive _ _ => false
  | _ => true

theorem History.wakesApart_of_all {e : RuleEngine} {σ : Store} {turns : List Turn}
    (h : History config ev e σ turns) (hall : turns.all Turn.addsApart = true) :
    ∀ t ∈ turns, t.WakesApart := by
  intro t ht r hr
  have hadds := List.all_eq_true.1 hall t ht
  rcases h.request_of_wakes ht hr with heq | ⟨id, heq⟩
  · rw [Turn.addsApart, heq] at hadds
    exact of_decide_eq_true hadds
  · rw [Turn.addsApart, heq] at hadds
    cases hadds

/-- What has C has D: nothing that is withdrawn says that something has C. -/
theorem least_model_of_other :
    let e := interruptedSession.engine
    let added : Turn := ⟨e, interruptedSession.store, .add (entail "other" ["C"] "D")⟩
    let turn : Turn := ⟨added.outcome.engine, added.outcome.store, .flush⟩
    e.isRederiving = true ∧ (∃ report, turn.outcome.answer = .ok report) ∧
      turn.HoldsLeastModel { Config.default with maxRounds := 3 } .standard := by
  intro e added turn
  obtain ⟨hpass, hflush, hadds, hapart⟩ : e.isRederiving = true ∧
      turn.outcome.answer.toBool = true ∧
      (turn :: added :: interruptedSession.turns).all Turn.addsPositive = true ∧
      (turn :: added :: interruptedSession.turns).all Turn.addsApart = true := by
    decide +kernel
  obtain ⟨report, hanswer⟩ := Turn.exists_report hflush
  have hhistory : History { Config.default with maxRounds := 3 } .standard turn.engine turn.store
      (added :: interruptedSession.turns) := .request added.request history_interruptedSession
  have hnext : History { Config.default with maxRounds := 3 } .standard turn.outcome.engine
      turn.outcome.store (turn :: added :: interruptedSession.turns) := .request .flush hhistory
  exact ⟨hpass, ⟨report, hanswer⟩, (store_eq_least_model_iff_founded hhistory
    (Turn.isPositive_of_all hadds) hanswer).2.2.2.2 (hnext.wakesApart_of_all hapart)⟩

private theorem not_derivable {graph : Node} {rules : List Rule} {settled : Quad → Prop}
    (hpos : ∀ r ∈ rules, r.IsPositive) (hneeds : ∀ r ∈ rules, r.condition.positives ≠ [])
    (hnone : ∀ q, ¬ settled q) (q : Quad) : ¬ Derivable ev graph rules settled q := by
  have hclosed : IsClosed ev graph rules settled fun _ => False := by
    refine ⟨hnone, fun r hr _ t hheld hadmits _ _ => ?_, fun r hr a ha => ?_⟩
    · have hfits := hadmits.fits
      have hfacts : t.facts = [] := List.eq_nil_iff_forall_not_mem.2 hheld
      cases hpositives : r.condition.positives with
      | nil => exact hneeds r hr hpositives
      | cons p rest =>
          rw [hpositives, hfacts] at hfits
          exact hfits
    · rw [(hpos r hr).2] at ha
      cases ha
  exact hclosed.of_derivable

/-- What has B has B, once more: the rule concludes what is withdrawn from itself, so it is reinstated
and stays, with nothing left that it could follow from. -/
theorem woken_rule_revives_withdrawn :
    let e := interruptedSession.engine
    let added : Turn := ⟨e, interruptedSession.store, .add (entail "copy" ["B"] "B")⟩
    let turn : Turn := ⟨added.outcome.engine, added.outcome.store, .flush⟩
    let leftover : Quad :=
      ⟨.iri Config.default.inferenceGraph, .iri "x", .iri "p", .iri "B"⟩
    History { Config.default with maxRounds := 3 } .standard turn.engine turn.store
        (added :: interruptedSession.turns) ∧
      (∀ t ∈ turn :: added :: interruptedSession.turns, ∀ r, t.request = .add r → r.IsPositive) ∧
      e.isRederiving = true ∧ leftover ∈ e.withdrawn ∧
      (∃ report, added.outcome.answer = .ok report) ∧
      (∃ report, turn.outcome.answer = .ok report) ∧
      turn.outcome.store.contents.Has leftover ∧
      ¬ Derivable .standard (.iri Config.default.inferenceGraph) turn.outcome.engine.activeRules
        (IsBase (.iri Config.default.inferenceGraph) turn.store.contents.Has) leftover := by
  intro e added turn leftover
  obtain ⟨hpass, hwithdrawn, hadds, hadd, hflush, hhas, hbase, hrules⟩ :
      e.isRederiving = true ∧ e.withdrawn.contains leftover = true ∧
      (turn :: added :: interruptedSession.turns).all Turn.addsPositive = true ∧
      added.outcome.answer.toBool = true ∧ turn.outcome.answer.toBool = true ∧
      turn.outcome.store.contents.contains leftover = true ∧
      turn.store.contents.quads.toList.all
        (fun q => decide (q.graph = .iri Config.default.inferenceGraph)) = true ∧
      ∀ r ∈ turn.outcome.engine.activeRules, r.IsPositive ∧ r.condition.positives ≠ [] := by
    decide +kernel
  have hhistory : History { Config.default with maxRounds := 3 } .standard turn.engine turn.store
      (added :: interruptedSession.turns) := .request added.request history_interruptedSession
  refine ⟨hhistory, Turn.isPositive_of_all hadds, hpass, hwithdrawn, Turn.exists_report hadd,
    Turn.exists_report hflush, hhas, not_derivable (fun r hr => (hrules r hr).1)
      (fun r hr => (hrules r hr).2) (fun q hq => hq.2 ?_) leftover⟩
  exact of_decide_eq_true (List.all_eq_true.1 hbase q (OrderedSet.mem_toList_iff.2 hq.1))

end Entail
