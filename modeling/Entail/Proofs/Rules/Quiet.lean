import Entail.Proofs.Rules.Counting
import Entail.Proofs.Rules.Positive
/-!
# Quiet states

When nothing waits and nothing is in doubt, the matches that fire are the outputs over the store, the
store holds what they conclude, and the support counts how often they conclude it.
-/

namespace Entail

/-- `(id, t, i)` stands for a conclusion of `q`: the rule named `id` has the output `t` over `stored`,
and its conclusion at position `i` draws `q` from it. -/
def IsDrawn (ev : Evaluator) (graph : Node) (rules : List Rule) (stored : Quad → Prop) (q : Quad) :
    String × Token × Nat → Prop :=
  fun (id, t, i) => ∃ r ∈ rules, r.id = id ∧ r.condition.IsOutput ev stored t ∧
    r.Draws ev graph t.bindings q i

namespace RuleEngine

variable {clean : Prop} {e : RuleEngine} {σ : Store} {q : Quad} {r : Rule} {t : Token}
  {seen : String → (Quad → Prop) → Prop} {hidden awaited doubted : Quad → Prop}

/-- The rules that are switched on. -/
def activeRules (e : RuleEngine) : List Rule :=
  e.rules.filter Rule.active

theorem Tracks.mem_activeRules_iff (h : e.Tracks seen) : r ∈ e.activeRules ↔ e.Runs r := by
  have hmem : r ∈ e.rules ↔ e.rule? r.id = some r := by
    rw [rules, OrderedMap.values, List.map_map, List.mem_map, rule?, Option.map_eq_some_iff]
    constructor
    · rintro ⟨⟨id, slot⟩, he, rfl⟩
      have hget := OrderedMap.mem_toList_iff.1 he
      have hid : slot.rule.id = id := h.named id slot hget
      refine ⟨slot, ?_, rfl⟩
      change e.slots.get? slot.rule.id = some slot
      rw [hid, hget]
    · rintro ⟨slot, hget, rfl⟩
      exact ⟨_, OrderedMap.mem_toList_iff.2 hget, rfl⟩
  rw [activeRules, List.mem_filter, hmem, Runs, and_comm]

namespace Ledger

private theorem eq_has (hqueue : e.queue σ = []) (hnone : ∀ q, ¬ hidden q) {held : Quad → Prop}
    (hheld : e.Sees clean σ hidden held) : held = σ.contents.Has := by
  funext q
  have hq := (hheld q).1 (hnone q)
  rw [hqueue] at hq
  exact propext hq

/-- With nothing waiting and nothing hidden, the matches that fire are the outputs over the store. -/
theorem fires_iff (h : Ledger clean e σ hidden awaited doubted) (hqueue : e.queue σ = [])
    (hnone : ∀ q, ¬ hidden q) (hr : e.Runs r) :
    e.Fires r t ↔ r.condition.IsOutput e.evaluator σ.contents.Has t := by
  obtain ⟨held, hheld, hiff⟩ := h.tracks.fires_iff hr
  rw [← eq_has hqueue hnone hheld]
  exact hiff t

/-- With nothing awaited either, the store holds what is concluded over it. -/
theorem holdsConclusions (h : Ledger clean e σ hidden awaited doubted) (hqueue : e.queue σ = [])
    (hnone : ∀ q, ¬ hidden q) (hawaited : ∀ q, ¬ awaited q) :
    HoldsConclusions e.evaluator e.graph e.activeRules σ.contents.Has := by
  intro r hr t q hout hc
  have hruns := h.tracks.mem_activeRules_iff.1 hr
  have hfires := (h.fires_iff hqueue hnone hruns).2 hout
  have hpos := h.tracks.total_pos_iff.2 ⟨r, t, hfires, hc⟩
  exact (h.complete q hpos).resolve_right (hawaited q)

theorem isCount_total (h : Ledger clean e σ hidden awaited doubted) (hqueue : e.queue σ = [])
    (hnone : ∀ q, ¬ hidden q) (q : Quad) :
    IsCount (IsDrawn e.evaluator e.graph e.activeRules σ.contents.Has q) (e.support.total q) := by
  have hrule : ∀ id slot, e.slots.get? id = some slot → ∀ r ∈ e.activeRules, r.id = id →
      r = slot.rule := by
    intro id slot hget r hr hid
    have hrule := (h.tracks.mem_activeRules_iff.1 hr).2
    rw [hid, rule?, hget] at hrule
    exact (Option.some_inj.1 hrule).symm
  rw [h.tracks.accounts.total_eq, slotTotal]
  refine OrderedMap.isCount_sumOver (fun id slot hget => ?_) fun id b hb => ?_
  · have hid := h.tracks.named id slot hget
    have hruns : ∀ t, slot.firings.contains t = true → e.Runs slot.rule := by
      intro t ht
      exact h.tracks.runs_of_fires (t := t) ⟨slot, by rw [hid, hget], rfl, ht⟩
    refine OrderedMap.isCount_sumOver (fun t qs hqs => ?_) fun t i hi => ?_
    · have hcontains := OrderedMap.contains_iff.2 ⟨qs, hqs⟩
      have hactive := hruns t hcontains
      have hout := (h.fires_iff hqueue hnone hactive).1 ⟨slot, by rw [hid, hget], rfl, hcontains⟩
      rw [(h.tracks.slots id slot hget).eq_drawn hqs]
      refine (Rule.count_instantiate e.evaluator e.graph slot.rule t.bindings q).congr fun i => ?_
      constructor
      · intro hi
        exact ⟨slot.rule, h.tracks.mem_activeRules_iff.2 hactive, hid, hout, hi⟩
      · rintro ⟨r, hr, hrid, _, hi⟩
        rwa [hrule id slot hget r hr hrid] at hi
    · obtain ⟨r, hr, hrid, hout, _⟩ := hi
      obtain rfl := hrule id slot hget r hr hrid
      obtain ⟨slot', hget', _, hcontains⟩ :=
        (h.fires_iff hqueue hnone (h.tracks.mem_activeRules_iff.1 hr)).2 hout
      rw [hid, hget] at hget'
      rwa [← Option.some_inj.1 hget'] at hcontains
  · obtain ⟨t, i⟩ := b
    obtain ⟨r, hr, rfl, _⟩ := hb
    have hrule := (h.tracks.mem_activeRules_iff.1 hr).2
    obtain ⟨slot, hget, _⟩ := Option.map_eq_some_iff.1 hrule
    exact OrderedMap.contains_iff.2 ⟨slot, hget⟩

end Ledger

/-- With nothing waiting, hidden or in doubt, grounds are finite derivations. -/
theorem AllGrounded.founded (h : e.AllGrounded σ hidden doubted)
    (hl : Ledger clean e σ hidden awaited doubted) (hqueue : e.queue σ = [])
    (hnone : ∀ q, ¬ hidden q) (hdoubt : ∀ q, ¬ doubted q) (hq : σ.contents.Has q) :
    Founded e.evaluator e.graph e.activeRules σ.contents.Has q := by
  by_cases hg : q.graph = e.graph
  · have hgrounded := h q hq hg (hnone q) (hdoubt q)
    clear hq hg
    induction hgrounded with
    | @byMatch r t q hfires hc _ _ ih =>
        have hruns := hl.tracks.runs_of_fires hfires
        have hout := (hl.fires_iff hqueue hnone hruns).1 hfires
        refine .byOutput (hl.tracks.mem_activeRules_iff.2 hruns) hout (fun f hf => ?_) hc
        by_cases hgf : f.graph = e.graph
        · refine ih f hf hgf ?_ (hdoubt f)
          rw [hqueue]
          exact List.not_mem_nil
        · exact .base (hout.isHeld f hf) hgf
  · exact .base hq hg

end RuleEngine

namespace RunState

variable {clean : Prop} {s : RunState} {q : Quad}

/-- What a quiet state is worth. -/
structure IsSettled (clean : Prop) (e : RuleEngine) (σ : Store) : Prop where
  holds : HoldsConclusions e.evaluator e.graph e.activeRules σ.contents.Has
  count : ∀ q, IsCount (IsDrawn e.evaluator e.graph e.activeRules σ.contents.Has q)
    (e.support.total q)
  founded : clean → ∀ q, σ.contents.Has q →
    Founded e.evaluator e.graph e.activeRules σ.contents.Has q

theorem Upholds.isSettled (h : s.Upholds clean .idle) (hq : s.engine.IsQuiet s.store) :
    IsSettled clean s.engine s.store := by
  have hnone : ∀ {set : OrderedSet Quad}, set = ∅ → ∀ q, q ∉ set := by
    rintro set rfl q
    exact OrderedSet.not_mem_empty q
  have hhidden := hnone hq.withdrawn_eq
  have hawaited : ∀ q, ¬ (q ∈ s.engine.deferred ∨ q ∈ ([] : List Quad)) :=
    fun q => not_or.2 ⟨hnone hq.deferred_eq q, List.not_mem_nil⟩
  have hdoubted : ∀ q, ¬ (q ∈ s.engine.suspects ∨ q ∈ ([] : List Quad)) :=
    fun q => not_or.2 ⟨hnone hq.suspects_eq q, List.not_mem_nil⟩
  exact ⟨h.standing.ledger.holdsConclusions hq.queue_eq hhidden hawaited,
    h.standing.ledger.isCount_total hq.queue_eq hhidden,
    fun hc q => (h.standing.grounded hc).founded h.standing.ledger hq.queue_eq hhidden hdoubted⟩

end RunState

/-! ## After an answer -/

/-- What the answer to a request is worth. -/
structure Turn.IsAnswered (clean : Prop) (config : Config) (ev : Evaluator) (t : Turn) : Prop where
  holds : HoldsConclusions ev (.iri config.inferenceGraph) t.outcome.engine.activeRules
    t.outcome.store.contents.Has
  count : ∀ q, IsCount (IsDrawn ev (.iri config.inferenceGraph) t.outcome.engine.activeRules
    t.outcome.store.contents.Has q) (t.outcome.engine.support.total q)
  founded : clean → ∀ q, t.outcome.store.contents.Has q → Founded ev (.iri config.inferenceGraph)
    t.outcome.engine.activeRules t.outcome.store.contents.Has q
  rule_eq : ∀ id, t.outcome.engine.rule? id = t.request.rule? t.engine id
  active_iff : ∀ r, r ∈ t.outcome.engine.activeRules ↔ t.outcome.engine.Runs r
  base_eq : IsBase (.iri config.inferenceGraph) t.store.contents.Has =
    IsBase (.iri config.inferenceGraph) t.outcome.store.contents.Has

/-- A request that is answered leaves a state that is worth what a quiet one is, also if runs were cut
short before. -/
theorem History.isAnswered_of_isSound {config : Config} {ev : Evaluator} {t : Turn}
    {earlier : List Turn} {report : FlushReport} (clean : Prop)
    (h : History config ev t.engine t.store earlier) (hsound : clean → IsSound (t :: earlier))
    (hanswer : t.outcome.answer = .ok report) : t.IsAnswered clean config ev := by
  obtain ⟨hupholds, hconfig, hevaluator⟩ := h.upholds
  have hearlier : clean → IsSound earlier :=
    fun hc x hx => hsound hc x (List.mem_cons_of_mem _ hx)
  have hfirst : clean → t.isSteady = true ∧ t.WakesApart :=
    fun hc => hsound hc t List.mem_cons_self
  rcases t.outcome_cases (hupholds.weaken hearlier) (fun hc => (hfirst hc).1)
      (fun hc => (hfirst hc).2) with
    ⟨error, heq⟩ | ⟨s₀, s, hopens, hframe, heq, hs, hquiet⟩ | ⟨s₀, s, limit, activity, _, _, heq, _⟩
  · rw [heq] at hanswer
    cases hanswer
  · have hsettled := hs.isSettled hquiet
    have hgraph : s.engine.graph = .iri config.inferenceGraph := by
      rw [RuleEngine.graph, hframe.config_eq, hopens.config_eq, hconfig]
    have hev : s.engine.evaluator = ev := by
      rw [hframe.evaluator_eq, hopens.evaluator_eq, hevaluator]
    have hbase : ∀ q : Quad, q.graph ≠ .iri config.inferenceGraph →
        (s.store.contents.Has q ↔ t.store.contents.Has q) := by
      intro q hq
      have hopened : s₀.engine.graph = .iri config.inferenceGraph := by
        rw [RuleEngine.graph, hopens.config_eq, hconfig]
      have hbefore : t.engine.graph = .iri config.inferenceGraph := by
        rw [RuleEngine.graph, hconfig]
      exact (hframe.base_iff q (hopened ▸ hq)).trans (hopens.base_iff q (hbefore ▸ hq))
    have hholds := hsettled.holds
    have hcount := hsettled.count
    have hfounded := hsettled.founded
    rw [hgraph, hev] at hholds hcount hfounded
    have hactive := fun r => hs.standing.ledger.tracks.mem_activeRules_iff (r := r)
    constructor
    · rwa [heq]
    · rwa [heq]
    · rwa [heq]
    · rw [heq]
      exact fun id => (hframe.rule_eq id).trans (hopens.rule_eq id)
    · rwa [heq]
    · rw [heq]
      exact isBase_congr hbase
  · rw [heq] at hanswer
    cases hanswer

theorem History.isAnswered {config : Config} {ev : Evaluator} {t : Turn} {earlier : List Turn}
    {report : FlushReport} (clean : Prop) (h : History config ev t.engine t.store earlier)
    (hclean : clean → IsClean earlier) (hsteady : clean → t.isSteady = true)
    (hanswer : t.outcome.answer = .ok report) : t.IsAnswered clean config ev := by
  refine h.isAnswered_of_isSound clean (fun hc x hx => ?_) hanswer
  rcases List.mem_cons.1 hx with rfl | hx
  · refine ⟨hsteady hc, fun r _ => ?_⟩
    rw [h.withdrawn_eq fun s hs => (hclean hc s hs).1]
    exact r.condition.isApart_empty
  · exact h.isSound_of_isClean (hclean hc) x hx

end Entail
