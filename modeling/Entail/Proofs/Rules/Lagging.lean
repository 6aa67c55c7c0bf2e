import Entail.Proofs.Rules.Flapping
import Entail.Proofs.Rules.Reports
/-!
# Lagging networks

Whatever others write, and whenever rules are switched on or off, every network lags behind the store by
the changes that wait and by the quads that are withdrawn, and by nothing else. Once a request is
answered nothing waits and nothing is withdrawn, so every network knows exactly what is stored.
-/

namespace Entail

open RuleEngine

variable {ev : Evaluator} {e e' : RuleEngine} {σ σ' : Store} {held : Quad → Prop} {q : Quad}
  {c : Change Quad} {changes : List (Change Quad)} {request : Request}

/-- With what is withdrawn put back, the changes that wait make of `held` what the store has. -/
def RuleEngine.Lags (e : RuleEngine) (σ : Store) (held : Quad → Prop) : Prop :=
  ∀ q, Change.stepAll (e.queue σ) (fun x => held x ∨ x ∈ e.withdrawn) q ↔ σ.contents.Has q

namespace RuleEngine.Lags

theorem congr (h : e.Lags σ held) (hqueue : e'.queue σ' = e.queue σ)
    (hwithdrawn : e'.withdrawn = e.withdrawn) (hcontents : σ'.contents = σ.contents) :
    e'.Lags σ' held := by
  intro q
  rw [hqueue, hwithdrawn, hcontents]
  exact h q

theorem has (h : e.Lags σ held) : e.Lags σ σ.contents.Has := by
  intro q
  have hq := h q
  rcases Change.stepAll_cases (e.queue σ) q with ⟨_, hall⟩ | ⟨_, hall⟩ | ⟨_, _, hall⟩
  · exact iff_of_true (hall _) (hq.1 (hall _))
  · exact iff_of_false (hall _) fun hhas => hall _ (hq.2 hhas)
  · rw [hall] at hq ⊢
    exact or_iff_left_of_imp fun hw => hq.1 (Or.inr hw)

theorem publish (h : e.Lags σ held) (hsubscribed : σ.feed.buffers.contains e.subscription = true)
    (ha : σ.Announces (fun _ => True) changes σ') : e.Lags σ' held := by
  have hlast : Change.stepAll (e.queue σ) (fun x => held x ∨ x ∈ e.withdrawn) = σ.contents.Has := by
    funext x
    exact propext (h x)
  intro q
  rw [queue_of_announces hsubscribed ha, Change.stepAll_append, hlast, ha.contents_eq,
    Contents.has_replay]
  rfl

theorem eq_has (h : e.Lags σ held) (hqueue : e.queue σ = []) (hwithdrawn : e.withdrawn = ∅) :
    held = σ.contents.Has := by
  funext q
  have hq : held q ∨ q ∈ e.withdrawn ↔ σ.contents.Has q := by
    have hlags := h q
    rw [hqueue] at hlags
    exact hlags
  have hnone : q ∉ e.withdrawn := by
    rw [hwithdrawn]
    exact OrderedSet.not_mem_empty q
  rw [or_iff_left hnone] at hq
  exact propext hq

/-! ## What a network is told -/

theorem propagate {rest : List (Change Quad)} (h : e.Lags σ held) (hpending : e.pending = c :: rest)
    (hwithdrawn : e.withdrawn = ∅) : Lags { e with pending := rest } σ (c.step held) := by
  have hqueue : e.queue σ = c :: queue { e with pending := rest } σ := by
    rw [queue, queue, hpending]
    rfl
  have hnone : ∀ held : Quad → Prop, (fun x => held x ∨ x ∈ e.withdrawn) = held := by
    intro held
    funext x
    rw [hwithdrawn]
    exact propext (or_iff_left (OrderedSet.not_mem_empty x))
  intro q
  have hq := h q
  rw [hnone, hqueue] at hq
  have hsame : (fun x => c.step held x ∨ x ∈ ({ e with pending := rest } : RuleEngine).withdrawn) =
      c.step held := hnone _
  rw [hsame]
  exact hq

theorem withdraw (h : e.Lags σ held) (hq : σ.contents.Has q) :
    Lags { e with withdrawn := e.withdrawn.insert q } σ ((Change.lost q).step held) := by
  intro x
  have hmem : x ∈ e.withdrawn.insert q ↔ q = x ∨ x ∈ e.withdrawn := OrderedSet.mem_insert
  by_cases hx : x = q
  · subst hx
    have hnow : (Change.lost x).step held x ∨ x ∈ e.withdrawn.insert x := Or.inr (hmem.2 (Or.inl rfl))
    exact iff_of_true (Change.stepAll_of_stepAll ((h x).2 hq) hnow) hq
  · have hsame : (Change.lost q).step held x ∨ x ∈ e.withdrawn.insert q ↔
        held x ∨ x ∈ e.withdrawn := by
      rw [hmem, or_iff_right (Ne.symm hx), Change.step_iff_of_ne hx]
    rw [← h x]
    exact Change.stepAll_congr hsame

theorem reinstate (h : e.Lags σ held) (hq : q ∈ e.withdrawn) :
    Lags { e with withdrawn := e.withdrawn.erase q } σ ((Change.gained q).step held) := by
  intro x
  have hmem : x ∈ e.withdrawn.erase q ↔ q ≠ x ∧ x ∈ e.withdrawn := OrderedSet.mem_erase
  have hsame : (Change.gained q).step held x ∨ x ∈ e.withdrawn.erase q ↔
      held x ∨ x ∈ e.withdrawn := by
    by_cases hx : x = q
    · subst hx
      exact iff_of_true (Or.inl (Or.inr rfl)) (Or.inr hq)
    · rw [hmem, and_iff_right (Ne.symm hx), Change.step_iff_of_ne hx]
  rw [← h x]
  exact Change.stepAll_congr hsame

theorem forget (h : e.Lags σ held) (hgone : ∀ x ∈ e.withdrawn, ¬ σ.contents.Has x)
    (hqueue : e'.queue σ = e.queue σ) (hwithdrawn : e'.withdrawn = ∅) : e'.Lags σ held := by
  intro x
  rw [hqueue, hwithdrawn]
  by_cases hx : x ∈ e.withdrawn
  · have hnot : ¬ Change.stepAll (e.queue σ) (fun y => held y ∨ y ∈ (∅ : OrderedSet Quad)) x :=
      fun hlast => hgone x hx ((h x).1 (Change.stepAll_of_stepAll hlast (Or.inr hx)))
    exact iff_of_false hnot (hgone x hx)
  · have hnone : x ∉ (∅ : OrderedSet Quad) := OrderedSet.not_mem_empty x
    have hsame : held x ∨ x ∈ (∅ : OrderedSet Quad) ↔ held x ∨ x ∈ e.withdrawn := by
      rw [or_iff_left hnone, or_iff_left hx]
    rw [← h x]
    exact Change.stepAll_congr hsame

end RuleEngine.Lags

namespace RunState

variable {s s' : RunState} {round : Round} {progress : Progress} {phase : Phase}

/-! ## Networks that lag -/

/-- All networks lag behind the store, and so does the store itself. -/
structure Lagging (ev : Evaluator) (s : RunState) : Prop where
  evaluator_eq : s.engine.evaluator = ev
  subscribed : s.store.feed.buffers.contains s.engine.subscription = true
  current : s.engine.Lags s.store s.store.contents.Has
  tracks : s.engine.Tracks fun _ held => s.engine.Lags s.store held

namespace Lagging

private theorem relabel (h : Lagging ev s) (hevaluator : s'.engine.evaluator = s.engine.evaluator)
    (hsubscribed : s'.store.feed.buffers.contains s'.engine.subscription = true)
    (hqueue : s'.engine.queue s'.store = s.engine.queue s.store)
    (hwithdrawn : s'.engine.withdrawn = s.engine.withdrawn)
    (hcontents : s'.store.contents = s.store.contents)
    (htracks : s'.engine.Tracks fun _ held => s.engine.Lags s.store held) : Lagging ev s' where
  evaluator_eq := hevaluator.trans h.evaluator_eq
  subscribed := hsubscribed
  current := (h.current.congr hqueue hwithdrawn hcontents).has
  tracks := htracks.mono fun _ _ hheld => hheld.congr hqueue hwithdrawn hcontents

theorem publish (h : Lagging ev s) (ha : s.store.Announces (fun _ => True) changes σ)
    (report : FlushReport) : Lagging ev { s with store := σ, report } where
  evaluator_eq := h.evaluator_eq
  subscribed := (ha.waiting s.engine.subscription trivial h.subscribed).1
  current := (h.current.publish h.subscribed ha).has
  tracks := h.tracks.mono fun _ _ hheld => hheld.publish h.subscribed ha

private theorem settle (h : Lagging ev s) (hsettle : s.settle phase = .ok s') : Lagging ev s' := by
  obtain ⟨suspects, deferred, hengine, _⟩ := (settle_touches hsettle).engine_eq
  obtain ⟨changes, _, hannounces⟩ := (settle_effects hsettle).publishes.announces
  have hpublished := h.publish (σ := s'.store) hannounces s.report
  refine hpublished.relabel ?_ ?_ ?_ ?_ rfl ?_
  · rw [hengine]
    rfl
  · rw [hengine]
    exact hpublished.subscribed
  · rw [hengine]
    rfl
  · rw [hengine]
    rfl
  · rw [hengine]
    exact ⟨hpublished.tracks.named, hpublished.tracks.slots, hpublished.tracks.accounts.settled⟩

private theorem takeChanges (h : Lagging ev s) : Lagging ev s.takeChanges := by
  have hqueue := s.queue_takeChanges
  unfold RunState.takeChanges at hqueue ⊢
  split at hqueue
  · rename_i hempty
    rw [if_pos hempty]
    exact h.relabel rfl (ChangeFeed.contains_drain h.subscribed) hqueue rfl rfl
      ⟨h.tracks.named, h.tracks.slots, h.tracks.accounts⟩
  · rename_i hsome
    rw [if_neg hsome]
    exact h

private theorem look (h : Lagging ev s) : Lagging ev s.nextSuspect.2 :=
  h.relabel rfl h.subscribed rfl rfl rfl ⟨h.tracks.named, h.tracks.slots, h.tracks.accounts⟩

private theorem lags_start (hready : s.Ready round progress) (hheld : s.engine.Lags s.store held) :
    (s.start round).engine.Lags s.store (round.change.step held) := by
  cases hready with
  | propagate hpending hwithdrawn _ =>
      refine (hheld.propagate hpending hwithdrawn).congr ?_ rfl rfl
      rw [start, queue, queue, hpending]
      rfl
  | withdraw _ hhas _ => exact (hheld.withdraw hhas).congr rfl rfl rfl
  | reinstate _ hmem => exact (hheld.reinstate (hmem _ List.mem_cons_self)).congr rfl rfl rfl

private theorem perform (h : Lagging ev s) (hready : s.Ready round progress)
    (hperform : s.perform round = .ok s') : Lagging ev s' := by
  obtain ⟨s₁, hinject, hsettle⟩ := Result.bind_eq_ok_iff.1 hperform
  obtain ⟨failures, e, hrun, hsame, rfl⟩ := inject_eq_ok hinject
  obtain ⟨_, htold, _⟩ := (tracks_start s round h.tracks).of_inject hrun
  have hlags : ∀ held, s.engine.Lags s.store held →
      e.Lags (s.start round).store (round.change.step held) := fun held hheld =>
    ((store_start s round).symm ▸ lags_start hready hheld).congr
      (by rw [queue, queue, hsame.pending_eq, hsame.subscription_eq]) hsame.withdrawn_eq rfl
  have htold' : Lagging ev ⟨e, (s.start round).store,
      { (s.start round).report with failures := (s.start round).report.failures ++ failures }⟩ := by
    refine ⟨(hsame.evaluator_eq.trans (evaluator_start s round)).trans h.evaluator_eq, ?_, ?_, ?_⟩
    · rw [store_start, hsame.subscription_eq, subscription_start]
      exact h.subscribed
    · exact (hlags _ h.current).has
    · refine htold.mono fun _ _ => ?_
      rintro ⟨before, hbefore, rfl⟩
      exact hlags before hbefore
  exact htold'.settle hsettle

private theorem finalize (h : Lagging ev s)
    (hzero : ∀ q ∈ s.engine.withdrawn, s.engine.support.total q = 0)
    (hfinalize : s.finalize = .ok s') : Lagging ev s' := by
  obtain ⟨losses, gains, hannounces, _, _, _, hgone⟩ := finalize_publishes hzero hfinalize
  have hpublished := h.publish hannounces s.report
  have hforget : ∀ held, s.engine.Lags s'.store held → s'.engine.Lags s'.store held := by
    intro held hheld
    have hengine := (finalize_cleared hfinalize).engine_eq
    exact hheld.forget hgone (by rw [hengine]; rfl) (by rw [hengine])
  obtain ⟨e, σ, report⟩ := s'
  obtain rfl := (finalize_cleared hfinalize).engine_eq
  exact ⟨h.evaluator_eq, hpublished.subscribed, hforget _ hpublished.current,
    ⟨h.tracks.named, fun id slot hget =>
      (hpublished.tracks.slots id slot hget).mono hforget, h.tracks.accounts⟩⟩

theorem isKept (ev : Evaluator) : IsKept fun s => s.Balanced ∧ Lagging ev s :=
  Balanced.isKept.and takeChanges look perform finalize

/-! ## Before a run -/

private theorem of_prepared {slots : OrderedMap String RuleSlot} {support : Support}
    {report : FlushReport} (h : Lagging ev (e.begin σ))
    (htracks : Tracks { e with slots, support } fun _ held => e.Lags σ held)
    (hsettle : RunState.settle .outside ⟨{ e with slots, support }, σ, report⟩ = .ok s) :
    Lagging ev s := by
  have hprepared : Lagging ev ⟨{ e with slots, support }, σ, report⟩ :=
    h.relabel rfl h.subscribed rfl rfl rfl htracks
  exact hprepared.settle hsettle

/-- What a request does before its run begins: a rule that comes to run takes in what is stored, and
lags behind it as the others do, whatever is still waiting. -/
theorem of_begins (h : Lagging ev (e.begin σ)) (hindexed : σ.contents.IsIndexed)
    (hbegins : Turn.Begins e σ request s) : Lagging ev s := by
  have htracks : e.Tracks fun _ held => e.Lags σ held := h.tracks
  cases hbegins with
  | keep => exact h
  | takeIn hnone hvalid hactive =>
      exact h.relabel rfl h.subscribed rfl rfl rfl (htracks.add_idle hnone hvalid hactive)
  | wake _ hold hvalid hactive hn hprime habsorb hrule hsettle =>
      obtain ⟨_, _, _, _, _, hprime', habsorb', _, hwoken, _⟩ := htracks.wake hold hvalid
        hactive hn hindexed h.current (fun _ _ => Iff.rfl) fun _ _ => Iff.rfl
      obtain ⟨rfl, rfl⟩ := Result.pair_eq_of_eq_ok hprime' hprime
      obtain ⟨rfl, hsame⟩ := Result.pair_eq_of_eq_ok habsorb' habsorb
      obtain ⟨rfl, rfl⟩ := Prod.mk.inj hsame
      exact h.of_prepared hwoken hsettle
  | rest hget hclear hslots hsettle =>
      obtain ⟨_, hclear', herased, _, hidle, _⟩ := htracks.rest hget rfl
      obtain ⟨_, rfl⟩ := Result.pair_eq_of_eq_ok hclear hclear'
      rcases hslots with ⟨_, rfl⟩ | ⟨_, rfl⟩
      · exact h.of_prepared herased hsettle
      · exact h.of_prepared hidle hsettle

end Lagging

end RunState

/-! ## Sessions -/

namespace Session

/-- However the engine came about, its networks lag behind the store and nothing else. -/
structure IsLagging (config : Config) (ev : Evaluator) (s : Session) : Prop where
  confined : s.IsConfined config
  lagging : RunState.Lagging ev (s.engine.begin s.store)

theorem isLagging_new (config : Config) (ev : Evaluator) (stored : List (Change Quad))
    (feed : ChangeFeed) :
    let opened := RuleEngine.new config ev ⟨Contents.empty.replay stored, feed⟩
    IsLagging config ev ⟨opened.1, opened.2, []⟩ := by
  intro opened
  refine ⟨isConfined_new config ev stored feed, rfl, ChangeFeed.contains_subscribe feed, fun q => ?_,
    tracks_of_empty rfl rfl⟩
  have hqueue : opened.1.queue opened.2 = [] := ChangeFeed.waiting_subscribe feed
  have hempty : (opened.1.begin opened.2).engine.queue (opened.1.begin opened.2).store = [] := hqueue
  rw [hempty]
  exact or_iff_left (OrderedSet.not_mem_empty q)

private theorem IsLagging.request_cases {config : Config} {ev : Evaluator} {s : Session}
    (h : s.IsLagging config ev) (request : Request) :
    (∃ error, request.carryOut s.engine s.store = s.engine.refuse s.store error) ∨
      ∃ s₀ last : RunState, RunState.Lagging ev last ∧
        (request.carryOut s.engine s.store).Leaves s₀ last := by
  have hbalanced := h.confined.balanced
  have hends : ∀ s₀, Turn.Begins s.engine s.store request s₀ →
      RunState.EndsIn (fun s => s.Balanced ∧ RunState.Lagging ev s) s₀.runToQuiet := by
    intro s₀ hbegins
    have hlagging := h.lagging.of_begins hbalanced.indexed hbegins
    exact (RunState.Lagging.isKept ev).runToQuiet ⟨hbegins.balanced hbalanced, hlagging⟩
  rcases request.carryOut_cases hbalanced hends with ⟨error, _, hrefused⟩ |
    ⟨_, s₀, last, ⟨_, hlagging⟩, hleaves⟩
  · exact Or.inl ⟨error, hrefused⟩
  · exact Or.inr ⟨s₀, last, hlagging, hleaves⟩

private theorem IsLagging.carryOut {config : Config} {ev : Evaluator} {s : Session}
    (h : s.IsLagging config ev) (event : Event) : (s.carryOut event).IsLagging config ev := by
  refine ⟨h.confined.carryOut event, ?_⟩
  cases event with
  | mutate m =>
      obtain ⟨changes, _, hannounces⟩ := m.announces s.store
      exact h.lagging.publish hannounces _
  | request request =>
      rcases h.request_cases request with ⟨error, heq⟩ | ⟨s₀, last, hlast, hleaves⟩
      · obtain ⟨hengine, hstore⟩ := carryOut_of_refused heq
        rw [hengine, hstore]
        exact h.lagging
      · have hbegin : (s.carryOut (.request request)).engine.begin
            (s.carryOut (.request request)).store = last.engine.begin last.store := hleaves.begin_eq
        rw [hbegin]
        exact ⟨hlast.evaluator_eq, hlast.subscribed, hlast.current, hlast.tracks⟩

theorem IsLagging.run {config : Config} {ev : Evaluator} {s : Session} (h : s.IsLagging config ev)
    (events : List Event) : (events.foldl Session.carryOut s).IsLagging config ev :=
  Result.foldl_inv (fun (s : Session) _ => s.IsLagging config ev)
    (fun _ event _ hs => hs.carryOut event) h

theorem IsLagging.tracks_of_answer {config : Config} {ev : Evaluator} {s : Session}
    (h : s.IsLagging config ev) {request : Request} {report : FlushReport}
    (hanswer : (request.carryOut s.engine s.store).answer = .ok report) :
    (request.carryOut s.engine s.store).engine.evaluator = ev ∧
      (request.carryOut s.engine s.store).engine.Tracks fun _ held =>
        held = (request.carryOut s.engine s.store).store.contents.Has := by
  rcases h.request_cases request with ⟨error, hrefused⟩ | ⟨s₀, last, hlast, hleaves⟩
  · rw [hrefused] at hanswer
    cases hanswer
  · obtain ⟨_, _, _, hquiet⟩ := RunState.run_tallies (hleaves.of_answer hanswer).1
    rw [hleaves.engine_eq, hleaves.store_eq]
    exact ⟨hlast.evaluator_eq,
      hlast.tracks.mono fun _ _ hheld => hheld.eq_has hquiet.queue_eq hquiet.withdrawn_eq⟩

end Session

end Entail
