import Entail.Proofs.Rules.Requests
import Entail.Proofs.Store.Mutations
/-!
# Histories

What an engine and its store may have gone through: requests to the engine, and changes of the store
outside the graph of the conclusions, in any order. Whatever the history, the ledger holds; and if no
run was cut short and none reinstated an unsupported quad, so do the grounds.
-/

namespace Entail

open RuleEngine

/-! ## Histories -/

/-- An engine and a store as they can come about. The store begins with any quads that are not in the
graph of the conclusions; `turns` are the requests made so far, the last one first. -/
inductive History (config : Config) (ev : Evaluator) : RuleEngine → Store → List Turn → Prop where
  | start {stored : List (Change Quad)} {feed : ChangeFeed} :
    (∀ q, (Contents.empty.replay stored).Has q → q.graph ≠ .iri config.inferenceGraph) →
    History config ev (RuleEngine.new config ev ⟨Contents.empty.replay stored, feed⟩).1
      (RuleEngine.new config ev ⟨Contents.empty.replay stored, feed⟩).2 []
  | mutate {e : RuleEngine} {σ : Store} {turns : List Turn} (m : Mutation) :
    History config ev e σ turns → (∀ q ∈ m.quads, q.graph ≠ e.graph) →
    History config ev e (m.carryOut σ) turns
  | request {e : RuleEngine} {σ : Store} {turns : List Turn} (request : Request) :
    History config ev e σ turns →
    History config ev (request.carryOut e σ).engine (request.carryOut e σ).store
      (⟨e, σ, request⟩ :: turns)

/-- No run was cut short, and none reinstated an unsupported quad. -/
def IsClean (turns : List Turn) : Prop :=
  ∀ t ∈ turns, ¬ t.IsStopped ∧ t.isSteady = true

/-- The rule `r` runs after the request and did not before. -/
def Turn.Wakes (t : Turn) (r : Rule) : Prop :=
  t.outcome.engine.Runs r ∧ ¬ t.engine.Runs r

/-- Quads are withdrawn only while a pass is cut short. No rule that comes to run then looks at one of
them. -/
def Turn.WakesApart (t : Turn) : Prop :=
  ∀ r, t.Wakes r → r.condition.IsApart t.engine.withdrawn

/-- No run reinstated an unsupported quad, and no rule that came to run looked at a withdrawn one. Runs
may have been cut short. -/
def IsSound (turns : List Turn) : Prop :=
  ∀ t ∈ turns, t.isSteady = true ∧ t.WakesApart

namespace RunState.Upholds

variable {clean : Prop} {e : RuleEngine} {σ : Store}

theorem begin_of {s : RunState} (h : s.Upholds clean .idle) :
    (s.engine.begin s.store).Upholds clean .idle :=
  .of_idle ⟨h.standing.ledger, h.standing.grounded⟩

theorem weaken {s : RunState} {clean' : Prop} (h : s.Upholds clean .idle)
    (hweak : clean' → clean) : s.Upholds clean' .idle :=
  .of_idle ⟨h.standing.ledger.weaken hweak, fun hc => h.standing.grounded (hweak hc)⟩

private theorem take_base {c : Change Quad} (h : (e.begin σ).Upholds clean .idle)
    (hc : c.value.graph ≠ e.graph) : (e.begin (σ.take c)).Upholds clean .idle := by
  have hledger := h.standing.ledger
  have hvalue : c.value ∉ e.withdrawn := fun hh => hc (hledger.hidden_graph _ hh)
  refine .of_idle ⟨hledger.take c (fun _ _ => Iff.rfl) hvalue fun q hq => ?_, fun hcl => ?_⟩
  · have hne : q ≠ c.value := by
      rintro rfl
      exact hc (hledger.conclusion hq).graph_eq
    rw [Change.step_iff_of_ne hne]
    exact hledger.complete q hq
  · exact (h.standing.grounded hcl).take_base hledger hc

theorem mutate (h : (e.begin σ).Upholds clean .idle) {m : Mutation}
    (hm : ∀ q ∈ m.quads, q.graph ≠ e.graph) : (e.begin (m.carryOut σ)).Upholds clean .idle :=
  m.carryOut_induction (P := fun σ => (e.begin σ).Upholds clean .idle) hm
    (fun _ _ hc _ hσ => take_base hσ hc) h

end RunState.Upholds

private theorem upholds_new (config : Config) (ev : Evaluator) {stored : List (Change Quad)}
    {feed : ChangeFeed} (clean : Prop)
    (h : ∀ q, (Contents.empty.replay stored).Has q → q.graph ≠ .iri config.inferenceGraph) :
    ((RuleEngine.new config ev ⟨Contents.empty.replay stored, feed⟩).1.begin
      (RuleEngine.new config ev ⟨Contents.empty.replay stored, feed⟩).2).Upholds clean .idle := by
  have hqueue : (RuleEngine.new config ev ⟨Contents.empty.replay stored, feed⟩).1.queue
      (RuleEngine.new config ev ⟨Contents.empty.replay stored, feed⟩).2 = [] :=
    ChangeFeed.waiting_subscribe feed
  have htotal : ∀ q, Support.empty.total q = 0 := fun q => rfl
  have hempty : ∀ q, q ∉ (∅ : OrderedSet Quad) := OrderedSet.not_mem_empty
  refine .of_idle ⟨?_, fun _ q hhas hg => absurd hg (h q hhas)⟩
  constructor
  · exact Contents.isIndexed_empty.replay stored
  · exact ChangeFeed.contains_subscribe feed
  · refine ⟨(Contents.empty.replay stored).Has, fun q => ?_⟩
    rw [RuleEngine.begin, hqueue]
    exact Iff.rfl
  · exact tracks_of_empty rfl rfl
  · rfl
  · rfl
  · exact fun q hq => absurd hq (hempty q)
  · exact fun q hq => absurd hq (hempty q)
  · rintro q (hq | hq)
    · exact absurd hq (hempty q)
    · exact absurd hq List.not_mem_nil
  · intro q hq
    have hq' : 0 < Support.empty.total q := hq
    rw [htotal] at hq'
    exact absurd hq' (Nat.lt_irrefl 0)

theorem Turn.Opens.rule?_outcome {clean : Prop} {t : Turn} {s₀ : RunState} (h : t.Opens clean s₀)
    (id : String) : t.outcome.engine.rule? id = t.request.rule? t.engine id := by
  have hweak : s₀.Upholds False .idle := h.upholds.weaken False.elim
  rw [← h.rule_eq, h.outcome_eq, RunState.runToQuiet]
  rcases RunState.run_spec hweak False.elim with
    ⟨s, hrun, _, _, hframe⟩ | ⟨s, activity, hrun, _, hframe⟩
  · rw [hrun]
    exact hframe.rule_eq id
  · rw [hrun]
    exact hframe.rule_eq id

/-- A request is refused, is answered in a quiet state, or runs out of rounds. -/
theorem Turn.outcome_cases {clean : Prop} {t : Turn}
    (h : (t.engine.begin t.store).Upholds clean .idle) (hsteady : clean → t.isSteady = true)
    (hapart : clean → t.WakesApart) :
    (∃ error, t.outcome = t.engine.refuse t.store error) ∨
    (∃ s₀ s, t.Opens clean s₀ ∧ s₀.Frame s ∧ t.outcome = ⟨s.engine, s.store, .ok s.report⟩ ∧
      s.Upholds clean .idle ∧ s.engine.IsQuiet s.store) ∨
    ∃ s₀ s limit activity, t.Opens clean s₀ ∧ s₀.Frame s ∧
      t.outcome = ⟨s.engine, s.store, .error (.error (.roundsExceeded limit activity))⟩ ∧
      s.Upholds clean .idle := by
  -- which rules run in the end is known before the history is known to be clean
  rcases t.outcome_spec (h.weaken False.elim) False.elim with ⟨_, hrefused⟩ | ⟨_, hloose⟩
  · exact Or.inl hrefused
  have hswitched : clean → ∀ r, t.request.SwitchesOn t.engine r →
      r.condition.IsApart t.engine.withdrawn := by
    rintro hc r ⟨hactive, hrule, hbefore⟩
    exact hapart hc r ⟨⟨hactive, (hloose.rule?_outcome r.id).trans hrule⟩, hbefore⟩
  rcases t.outcome_spec h hswitched with ⟨_, hrefused⟩ | ⟨s₀, hopens⟩
  · exact Or.inl hrefused
  · right
    have hsteady' : clean → s₀.isSteady .idle s₀.engine.config.maxRounds = true := by
      intro hc
      have := hsteady hc
      rw [isSteady, hopens.opening_eq] at this
      exact this
    rcases RunState.run_spec hopens.upholds hsteady' with
      ⟨s, hrun, hupholds, hquiet, hrules⟩ | ⟨s, activity, hrun, hupholds, hrules⟩
    · refine Or.inl ⟨s₀, s, hopens, hrules, ?_, hupholds, hquiet⟩
      rw [hopens.outcome_eq, RunState.runToQuiet, hrun]
      rfl
    · refine Or.inr ⟨s₀, s, s₀.engine.config.maxRounds, some activity, hopens, hrules, ?_,
        hupholds⟩
      rw [hopens.outcome_eq, RunState.runToQuiet, hrun]
      rfl

/-- A rule that is there once a request is granted was there before, or comes with the request. -/
theorem Request.rule?_induction {P : Rule → Prop} {e : RuleEngine} {request : Request}
    (hswitch : ∀ r active, P r → P { r with active })
    (hbefore : ∀ id r, e.rule? id = some r → P r) (hadd : ∀ r, request = .add r → P r)
    {id : String} {r : Rule} (h : request.rule? e id = some r) : P r := by
  cases request with
  | flush => exact hbefore id r h
  | add r' =>
      rw [Request.rule?] at h
      split at h
      · cases h
        exact hadd r rfl
      · exact hbefore id r h
  | remove id' =>
      rw [Request.rule?] at h
      split at h
      · cases h
      · exact hbefore id r h
  | setActive id' active =>
      rw [Request.rule?] at h
      split at h
      · obtain ⟨r', hr', rfl⟩ := Option.map_eq_some_iff.1 h
        exact hswitch r' active (hbefore id r' hr')
      · exact hbefore id r h

theorem Request.SwitchesOn.request_eq {e : RuleEngine} {r : Rule} {request : Request}
    (h : request.SwitchesOn e r) : request = .add r ∨ ∃ id, request = .setActive id true := by
  obtain ⟨hactive, hrule, hbefore⟩ := h
  have hother : e.rule? r.id ≠ some r := fun heq => hbefore ⟨hactive, heq⟩
  cases request with
  | flush => exact absurd hrule hother
  | add r' =>
      rw [Request.rule?] at hrule
      split at hrule
      · cases hrule
        exact Or.inl rfl
      · exact absurd hrule hother
  | remove id =>
      rw [Request.rule?] at hrule
      split at hrule
      · cases hrule
      · exact absurd hrule hother
  | setActive id active =>
      rw [Request.rule?] at hrule
      split at hrule
      · obtain ⟨r', _, rfl⟩ := Option.map_eq_some_iff.1 hrule
        obtain rfl : active = true := hactive
        exact Or.inr ⟨id, rfl⟩
      · exact absurd hrule hother

namespace History

variable {config : Config} {ev : Evaluator} {e : RuleEngine} {σ : Store} {turns : List Turn}

theorem upholds (h : History config ev e σ turns) :
    (e.begin σ).Upholds (IsSound turns) .idle ∧ e.config = config ∧ e.evaluator = ev := by
  induction h with
  | start hstored => exact ⟨upholds_new config ev _ hstored, rfl, rfl⟩
  | mutate m _ hm ih => exact ⟨ih.1.mutate hm, ih.2⟩
  | @request e σ turns request _ ih =>
      have hearlier : IsSound (⟨e, σ, request⟩ :: turns) → IsSound turns :=
        fun hs t ht => hs t (List.mem_cons_of_mem _ ht)
      have hfirst : IsSound (⟨e, σ, request⟩ :: turns) →
          Turn.isSteady ⟨e, σ, request⟩ = true ∧ Turn.WakesApart ⟨e, σ, request⟩ :=
        fun hs => hs _ List.mem_cons_self
      obtain ⟨hupholds, hconfig, hevaluator⟩ := ih
      rcases Turn.outcome_cases (t := ⟨e, σ, request⟩) (hupholds.weaken hearlier)
          (fun hs => (hfirst hs).1) (fun hs => (hfirst hs).2) with
        ⟨error, heq⟩ | ⟨s₀, s, hopens, hrules, heq, hs, _⟩ |
        ⟨s₀, s, limit, activity, hopens, hrules, heq, hs⟩
      · have heq' : request.carryOut e σ = e.refuse σ error := heq
        rw [heq']
        exact ⟨hupholds.weaken hearlier, hconfig, hevaluator⟩
      · have heq' : request.carryOut e σ = ⟨s.engine, s.store, .ok s.report⟩ := heq
        rw [heq']
        refine ⟨hs.begin_of, ?_, ?_⟩
        · rw [hrules.config_eq, hopens.config_eq, hconfig]
        · rw [hrules.evaluator_eq, hopens.evaluator_eq, hevaluator]
      · have heq' : request.carryOut e σ =
            ⟨s.engine, s.store, .error (.error (.roundsExceeded limit activity))⟩ := heq
        rw [heq']
        refine ⟨hs.begin_of, ?_, ?_⟩
        · rw [hrules.config_eq, hopens.config_eq, hconfig]
        · rw [hrules.evaluator_eq, hopens.evaluator_eq, hevaluator]

theorem outcome_cases {t : Turn} {earlier : List Turn}
    (h : History config ev t.engine t.store earlier) :
    (∃ error, t.outcome = t.engine.refuse t.store error) ∨
    (∃ s₀, ∃ s : RunState, t.Opens False s₀ ∧ t.outcome = ⟨s.engine, s.store, .ok s.report⟩ ∧
      s.engine.IsQuiet s.store) ∨
    ∃ s₀, t.Opens False s₀ ∧ t.IsStopped := by
  rcases t.outcome_cases (h.upholds.1.weaken False.elim) False.elim False.elim with
    hrefused | ⟨s₀, s, hopens, _, heq, _, hquiet⟩ | ⟨s₀, s, limit, activity, hopens, _, heq, _⟩
  · exact Or.inl hrefused
  · exact Or.inr (Or.inl ⟨s₀, s, hopens, heq, hquiet⟩)
  · exact Or.inr (Or.inr ⟨s₀, hopens, limit, activity, congrArg Outcome.answer heq⟩)

theorem withdrawn_eq (h : History config ev e σ turns) (hstop : ∀ t ∈ turns, ¬ t.IsStopped) :
    e.withdrawn = ∅ := by
  induction h with
  | start _ => rfl
  | mutate _ _ _ ih => exact ih hstop
  | @request e σ turns request h ih =>
      rcases outcome_cases (t := ⟨e, σ, request⟩) h with ⟨error, heq⟩ |
        ⟨_, s, _, heq, hquiet⟩ | ⟨_, _, hstopped⟩
      · have heq' : request.carryOut e σ = e.refuse σ error := heq
        rw [heq']
        exact ih fun t ht => hstop t (List.mem_cons_of_mem _ ht)
      · have heq' : request.carryOut e σ = ⟨s.engine, s.store, .ok s.report⟩ := heq
        rw [heq']
        exact hquiet.withdrawn_eq
      · exact absurd hstopped (hstop _ List.mem_cons_self)

theorem isSound_of_isClean (h : History config ev e σ turns) (hclean : IsClean turns) :
    IsSound turns := by
  induction h with
  | start _ => exact fun t ht => absurd ht List.not_mem_nil
  | mutate _ _ _ ih => exact ih hclean
  | @request e σ turns request h ih =>
      have hearlier : IsClean turns := fun t ht => hclean t (List.mem_cons_of_mem _ ht)
      intro t ht
      rcases List.mem_cons.1 ht with rfl | ht
      · refine ⟨(hclean _ List.mem_cons_self).2, fun r _ => ?_⟩
        have hnone : e.withdrawn = ∅ := h.withdrawn_eq fun t ht => (hearlier t ht).1
        rw [hnone]
        exact r.condition.isApart_empty
      · exact ih hearlier t ht

/-- What holds of every rule that is taken in, however it is switched, holds of the rules that are
there. -/
theorem rules (h : History config ev e σ turns) {P : Rule → Prop}
    (hswitch : ∀ r active, P r → P { r with active })
    (hadd : ∀ t ∈ turns, ∀ r, t.request = .add r → P r) :
    ∀ id r, e.rule? id = some r → P r := by
  induction h with
  | start _ => exact nofun
  | mutate _ _ _ ih => exact ih hadd
  | @request e σ turns request h ih =>
      have hbefore := ih fun t ht => hadd t (List.mem_cons_of_mem _ ht)
      have hgranted : ∀ {s₀ : RunState}, Turn.Opens False ⟨e, σ, request⟩ s₀ →
          ∀ id r, (request.carryOut e σ).engine.rule? id = some r → P r := by
        intro s₀ hopens id r hr
        have hrule : (request.carryOut e σ).engine.rule? id = request.rule? e id :=
          hopens.rule?_outcome id
        exact Request.rule?_induction hswitch hbefore (hadd _ List.mem_cons_self) (hrule ▸ hr)
      rcases outcome_cases (t := ⟨e, σ, request⟩) h with
        ⟨error, heq⟩ | ⟨_, _, hopens, _⟩ | ⟨_, hopens, _⟩
      · have heq' : request.carryOut e σ = e.refuse σ error := heq
        rw [heq']
        exact hbefore
      · exact hgranted hopens
      · exact hgranted hopens

theorem of_mem (h : History config ev e σ turns) {t : Turn} (ht : t ∈ turns) :
    ∃ earlier, History config ev t.engine t.store earlier := by
  induction h with
  | start _ => exact absurd ht List.not_mem_nil
  | mutate _ _ _ ih => exact ih ht
  | request _ h ih =>
      rcases List.mem_cons.1 ht with rfl | ht
      · exact ⟨_, h⟩
      · exact ih ht

theorem switchesOn_of_wakes {t : Turn} {earlier : List Turn}
    (h : History config ev t.engine t.store earlier) {r : Rule} (hwakes : t.Wakes r) :
    t.request.SwitchesOn t.engine r := by
  obtain ⟨⟨hactive, hrule⟩, hbefore⟩ := hwakes
  rcases h.outcome_cases with ⟨error, heq⟩ | ⟨_, _, hopens, _⟩ | ⟨_, hopens, _⟩
  · rw [heq] at hrule
    exact absurd ⟨hactive, hrule⟩ hbefore
  · exact ⟨hactive, (hopens.rule?_outcome r.id).symm.trans hrule, hbefore⟩
  · exact ⟨hactive, (hopens.rule?_outcome r.id).symm.trans hrule, hbefore⟩

theorem request_of_wakes (h : History config ev e σ turns) {t : Turn} (ht : t ∈ turns) {r : Rule}
    (hwakes : t.Wakes r) : t.request = .add r ∨ ∃ id, t.request = .setActive id true := by
  obtain ⟨earlier, ht'⟩ := h.of_mem ht
  exact (ht'.switchesOn_of_wakes hwakes).request_eq

end History

/-! ## Sessions -/

/-- What can happen to an engine and its store. -/
inductive Event where
  | mutate (m : Mutation)
  | request (request : Request)

/-- The quads that others may bring or take. -/
def Event.quads : Event → List Quad
  | mutate m => m.quads
  | request _ => []

/-- An engine and its store after some events; `turns` are the requests among them, the last one
first. -/
structure Session where
  engine : RuleEngine
  store : Store
  turns : List Turn

namespace Session

def start (config : Config) (ev : Evaluator) (stored : List (Change Quad)) : Session :=
  let (engine, store) := RuleEngine.new config ev ⟨Contents.empty.replay stored, .empty⟩
  ⟨engine, store, []⟩

def carryOut (s : Session) : Event → Session
  | .mutate m => { s with store := m.carryOut s.store }
  | .request request =>
    let outcome := request.carryOut s.engine s.store
    ⟨outcome.engine, outcome.store, ⟨s.engine, s.store, request⟩ :: s.turns⟩

theorem carryOut_of_refused {s : Session} {request : Request} {error : Error}
    (h : request.carryOut s.engine s.store = s.engine.refuse s.store error) :
    (s.carryOut (.request request)).engine = s.engine ∧
      (s.carryOut (.request request)).store = s.store :=
  ⟨congrArg Outcome.engine h, congrArg Outcome.store h⟩

theorem history {config : Config} {ev : Evaluator} {s : Session} {events : List Event}
    (h : History config ev s.engine s.store s.turns)
    (hbase : ∀ event ∈ events, ∀ q ∈ event.quads, q.graph ≠ .iri config.inferenceGraph) :
    History config ev (events.foldl carryOut s).engine (events.foldl carryOut s).store
      (events.foldl carryOut s).turns := by
  induction events generalizing s with
  | nil => exact h
  | cons event rest ih =>
      refine ih ?_ fun x hx => hbase x (List.mem_cons_of_mem _ hx)
      cases event with
      | mutate m =>
          have hgraph : s.engine.graph = .iri config.inferenceGraph := by
            rw [graph, h.upholds.2.1]
          refine .mutate m h fun q hq => ?_
          exact hgraph ▸ hbase _ List.mem_cons_self q hq
      | request request => exact .request request h

theorem history_of_empty {config : Config} {ev : Evaluator} {events : List Event}
    (hbase : ∀ event ∈ events, ∀ q ∈ event.quads, q.graph ≠ .iri config.inferenceGraph) :
    let s := events.foldl carryOut (start config ev [])
    History config ev s.engine s.store s.turns :=
  history (.start fun _ hq => absurd hq Contents.not_contains_empty) hbase

end Session

theorem Turn.not_isStopped {t : Turn} (h : t.outcome.answer.toBool = true) : ¬ t.IsStopped := by
  rintro ⟨limit, activity, hstopped⟩
  rw [hstopped] at h
  cases h

theorem Turn.exists_report {t : Turn} (h : t.outcome.answer.toBool = true) :
    ∃ report, t.outcome.answer = .ok report := by
  cases heq : t.outcome.answer with
  | ok report => exact ⟨report, rfl⟩
  | error error =>
      rw [heq] at h
      cases h

end Entail
