import Entail.Proofs.Rules.Quiet
/-!
# The least model

With positive rules the store holds, after every request that is answered, what is derivable from the
quads outside the graph of the conclusions, and nothing else.
-/

namespace Entail

variable {config : Config} {ev : Evaluator} {turn : Turn} {earlier : List Turn}
  {report : FlushReport}

/-- After any history of requests with positive rules, none of them cut short, and of changes outside
the graph of the conclusions, the store holds what is derivable by the active rules from the quads
outside that graph, and the support of a quad is the number of ways to conclude it in one step. -/
theorem store_eq_least_model (h : History config ev turn.engine turn.store earlier)
    (hpositive : ∀ t ∈ turn :: earlier, ∀ r, t.request = .add r → r.IsPositive)
    (hlimit : ∀ t ∈ earlier, ¬ t.IsStopped) (hanswer : turn.outcome.answer = .ok report) :
    (∀ id, turn.outcome.engine.rule? id = turn.request.rule? turn.engine id) ∧
      (∀ q, turn.outcome.store.contents.Has q ↔
        Derivable ev (.iri config.inferenceGraph) turn.outcome.engine.activeRules
          (IsBase (.iri config.inferenceGraph) turn.store.contents.Has) q) ∧
      ∀ q, IsCount
        (IsDrawn ev (.iri config.inferenceGraph) turn.outcome.engine.activeRules
          turn.outcome.store.contents.Has q)
        (turn.outcome.engine.support.total q) := by
  have hearlier : ∀ t ∈ earlier, ∀ r, t.request = .add r → r.IsPositive :=
    fun t ht => hpositive t (List.mem_cons_of_mem _ ht)
  have hrules : turn.engine.IsPositive := h.rules (fun _ _ hr => hr) hearlier
  have hsteady := Turn.isSteady_of_isPositive (h.upholds.1.weaken False.elim) hrules
    (hpositive turn List.mem_cons_self)
  have hclean := h.isClean_of_isPositive hearlier hlimit
  have hresult := h.isAnswered True (fun _ => hclean) (fun _ => hsteady) hanswer
  have hpos : ∀ r ∈ turn.outcome.engine.activeRules, r.IsPositive := by
    intro r hr
    have hrule := ((hresult.active_iff r).1 hr).2
    rw [hresult.rule_eq] at hrule
    exact Request.rule?_induction (fun _ _ hr => hr) hrules (hpositive turn List.mem_cons_self)
      hrule
  refine ⟨hresult.rule_eq, fun q => ?_, hresult.count⟩
  rw [hresult.base_eq]
  exact (derivable_iff_stored hpos hresult.holds (hresult.founded trivial)).symm

/-- Whatever can be reached in two steps can be reached in one. -/
def reach : Rule where
  id := "reach"
  condition := ⟨[⟨.any, .variable ⟨"x"⟩, .node (.iri "to"), .variable ⟨"y"⟩⟩,
    ⟨.any, .variable ⟨"y"⟩, .node (.iri "to"), .variable ⟨"z"⟩⟩], [], none⟩
  guard := none
  conclusions := [⟨.variable ⟨"x"⟩, .node (.iri "to"), .variable ⟨"z"⟩⟩]
  active := true

/-- From a to b, and once the rule is there from b to c: then c can be reached from a. -/
theorem least_model_of_reach :
    let edge := fun x y => Quad.mk (.iri "g") (.iri x) (.iri "to") (.iri y)
    let first := RuleEngine.new .default .standard
      ⟨Contents.empty.replay [.gained (edge "a" "b")], .empty⟩
    let second := (Request.add reach).carryOut first.1 first.2
    let turn : Turn :=
      ⟨second.engine, (Mutation.insert (edge "b" "c")).carryOut second.store, .flush⟩
    (∃ report, turn.outcome.answer = .ok report) ∧
      ∀ q, turn.outcome.store.contents.Has q ↔
        Derivable .standard (.iri Config.default.inferenceGraph) turn.outcome.engine.activeRules
          (IsBase (.iri Config.default.inferenceGraph) turn.store.contents.Has) q := by
  intro edge first second turn
  have hstart : ∀ q, (Contents.empty.replay [.gained (edge "a" "b")]).Has q →
      q.graph ≠ .iri Config.default.inferenceGraph := by
    intro q hq
    rw [Contents.has_replay] at hq
    rcases hq with hq | rfl
    · exact absurd hq Contents.not_contains_empty
    · decide
  have hhistory : History .default .standard turn.engine turn.store
      [⟨first.1, first.2, .add reach⟩] :=
    .mutate (.insert (edge "b" "c")) (.request (.add reach) (.start hstart)) (by decide +kernel)
  have hadd : second.answer.toBool = true := by decide +kernel
  have hflush : turn.outcome.answer.toBool = true := by decide +kernel
  obtain ⟨report, hanswer⟩ := Turn.exists_report hflush
  have hlimit : ∀ t ∈ [(⟨first.1, first.2, .add reach⟩ : Turn)], ¬ t.IsStopped := by
    intro t ht
    obtain rfl := List.mem_singleton.1 ht
    exact Turn.not_isStopped hadd
  have hpositive : ∀ t ∈ [turn, ⟨first.1, first.2, .add reach⟩], ∀ r, t.request = .add r →
      r.IsPositive := by
    intro t ht r hr
    rcases List.mem_cons.1 ht with rfl | ht
    · cases hr
    · obtain rfl := List.mem_singleton.1 ht
      cases hr
      exact ⟨rfl, rfl⟩
  exact ⟨⟨report, hanswer⟩, (store_eq_least_model hhistory hpositive hlimit hanswer).2.1⟩

end Entail
