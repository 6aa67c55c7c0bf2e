import Entail.Proofs.Rules.Confinement
import Entail.Proofs.Rules.Failures
import Entail.Proofs.Rules.Flapping
import Entail.Proofs.Rules.Reports
/-!
# Moments

The networks are told of the history of the store change by change. What each of them knows is what the
store had at some moment, but for quads whose loss it was told of ahead of the store: those withdrawn, and
those left withdrawn when a pass ended. A network whose rule came to run while changes were waiting is
ahead of the others by these changes, and is told of them again. This is so as long as no quad waits twice
when a rule comes to run, and nothing is withdrawn then, and as others leave the graph of the conclusions
alone while a pass is cut short.
-/

namespace Entail

open RuleEngine

variable {σ₀ σ σ' : Store} {told ahead rest past history changes : List (Change Quad)}
  {gone held : Quad → Prop} {e e' : RuleEngine} {q : Quad} {f : ConclusionFailure} {r : Rule}

/-- What the store had when it had gone through the changes `past` since it was `σ₀`, without the quads
of `gone`. -/
def Store.moment (σ₀ : Store) (past : List (Change Quad)) (gone : Quad → Prop) (q : Quad) : Prop :=
  (σ₀.contents.replay past).Has q ∧ ¬ gone q

/-- A conclusion that came is still waiting. -/
def RuleEngine.Awaits (e : RuleEngine) (σ : Store) : Prop :=
  ∃ q, q.graph = e.graph ∧ .gained q ∈ e.queue σ

/-! ## What one network knows -/

/-- The changes `ahead` wait for the other networks, but not for this one. They mention no quad twice, so
that it makes no difference to be told of them again. The quads of `gone` are still withdrawn, or their
loss waits for this network too. -/
structure Knows (σ₀ : Store) (told : List (Change Quad)) (e : RuleEngine) (σ : Store)
    (ahead rest : List (Change Quad)) (gone : Quad → Prop) : Prop where
  queue_eq : e.queue σ = ahead ++ rest
  ahead_nodup : (ahead.map Change.value).Nodup
  gone_has : ∀ q, gone q → (σ₀.contents.replay (told ++ ahead)).Has q ∧ q.graph = e.graph
  gone_from : ∀ q, gone q → q ∈ e.withdrawn ∨ .lost q ∈ rest
  withdrawn_gone : ∀ q ∈ e.withdrawn, gone q

/-- What a network may know when all of them were told of the changes `told`. -/
def Recalls (σ₀ : Store) (told : List (Change Quad)) (e : RuleEngine) (σ : Store)
    (held : Quad → Prop) : Prop :=
  ∃ ahead rest gone, Knows σ₀ told e σ ahead rest gone ∧ held = σ₀.moment (told ++ ahead) gone

private theorem Knows.has_iff {own : Nat → Prop} (h : Knows σ₀ told e σ ahead rest gone)
    (ha : σ₀.Announces own (told ++ e.queue σ) σ) (q : Quad) :
    σ.contents.Has q ↔ Change.stepAll rest (σ₀.contents.replay (told ++ ahead)).Has q := by
  rw [ha.contents_eq, h.queue_eq, ← List.append_assoc, Contents.replay_append, Contents.has_replay]
  exact Iff.rfl

private theorem step_moment {past past' : List (Change Quad)} (c : Change Quad)
    (hother : ∀ q, q ≠ c.value →
      ((σ₀.contents.replay past').Has q ↔ (σ₀.contents.replay past).Has q))
    (hvalue : (σ₀.contents.replay past').Has c.value ↔ c.isGain = true) :
    c.step (σ₀.moment past gone) = σ₀.moment past' fun q => gone q ∧ q ≠ c.value := by
  funext q
  apply propext
  by_cases hq : q = c.value
  · subst hq
    rw [Change.step_value_iff, Store.moment, hvalue]
    exact (and_iff_left fun hgone => hgone.2 rfl).symm
  · rw [Change.step_iff_of_ne hq, Store.moment, Store.moment, hother q hq, and_iff_left hq]

namespace Recalls

theorem congr (h : Recalls σ₀ told e σ held) (hqueue : e'.queue σ' = e.queue σ)
    (hwithdrawn : e'.withdrawn = e.withdrawn) (hgraph : e'.graph = e.graph) :
    Recalls σ₀ told e' σ' held := by
  obtain ⟨ahead, rest, gone, hknows, rfl⟩ := h
  refine ⟨ahead, rest, gone, ?_, rfl⟩
  constructor
  · rw [hqueue]
    exact hknows.queue_eq
  · exact hknows.ahead_nodup
  · rw [hgraph]
    exact hknows.gone_has
  · rw [hwithdrawn]
    exact hknows.gone_from
  · rw [hwithdrawn]
    exact hknows.withdrawn_gone

theorem publish (h : Recalls σ₀ told e σ held) (hqueue : e.queue σ' = e.queue σ ++ changes) :
    Recalls σ₀ told e σ' held := by
  obtain ⟨ahead, rest, gone, hknows, rfl⟩ := h
  have hqueue' : e.queue σ' = ahead ++ (rest ++ changes) := by
    rw [hqueue, hknows.queue_eq, List.append_assoc]
  have hfrom : ∀ q, gone q → q ∈ e.withdrawn ∨ .lost q ∈ rest ++ changes := by
    intro q hq
    rcases hknows.gone_from q hq with hw | hlost
    · exact Or.inl hw
    · exact Or.inr (List.mem_append_left changes hlost)
  exact ⟨ahead, rest ++ changes, gone,
    ⟨hqueue', hknows.ahead_nodup, hknows.gone_has, hfrom, hknows.withdrawn_gone⟩, rfl⟩

private theorem propagate {c : Change Quad} (h : Recalls σ₀ told e σ held)
    (hqueue : e.queue σ = c :: e'.queue σ) (hnone : e.withdrawn = ∅) (hnone' : e'.withdrawn = ∅)
    (hgraph : e'.graph = e.graph) : Recalls σ₀ (told ++ [c]) e' σ (c.step held) := by
  obtain ⟨ahead, rest, gone, hknows, rfl⟩ := h
  have hlost : ∀ q, gone q → .lost q ∈ rest := by
    intro q hq
    refine (hknows.gone_from q hq).resolve_left ?_
    rw [hnone]
    exact OrderedSet.not_mem_empty q
  have hempty : ∀ q, q ∉ e'.withdrawn := by
    rw [hnone']
    exact OrderedSet.not_mem_empty
  have hcons := hknows.queue_eq
  rw [hqueue] at hcons
  cases ahead with
  | nil =>
      have hrest : rest = c :: e'.queue σ := hcons.symm
      have hother : ∀ q, q ≠ c.value →
          ((σ₀.contents.replay (told ++ [c])).Has q ↔ (σ₀.contents.replay told).Has q) := by
        intro q hq
        rw [Contents.has_replay_concat, Change.step_iff_of_ne hq]
      have hvalue : (σ₀.contents.replay (told ++ [c])).Has c.value ↔ c.isGain = true := by
        rw [Contents.has_replay_concat, Change.step_value_iff]
      have hknows' : Knows σ₀ (told ++ [c]) e' σ [] (e'.queue σ)
          fun q => gone q ∧ q ≠ c.value := by
        constructor
        · rfl
        · exact List.nodup_nil
        · rintro q ⟨hq, hne⟩
          obtain ⟨hhas, hq'⟩ := hknows.gone_has q hq
          rw [List.append_nil] at hhas ⊢
          rw [hother q hne, hgraph]
          exact ⟨hhas, hq'⟩
        · rintro q ⟨hq, hne⟩
          have hmem := hlost q hq
          rw [hrest] at hmem
          rcases List.mem_cons.1 hmem with rfl | hmem
          · exact absurd rfl hne
          · exact Or.inr hmem
        · intro q hq
          exact absurd hq (hempty q)
      refine ⟨[], e'.queue σ, _, hknows', ?_⟩
      rw [List.append_nil, List.append_nil]
      exact step_moment c hother hvalue
  | cons first ahead =>
      -- the network has gone through this change before, and through no later one of its quad
      obtain ⟨rfl, hrest⟩ := List.cons.inj hcons
      obtain ⟨hnot, hnodup⟩ := List.nodup_cons.1 hknows.ahead_nodup
      have hpast : told ++ [c] ++ ahead = told ++ c :: ahead := by
        rw [List.append_assoc, List.singleton_append]
      have hvalue : (σ₀.contents.replay (told ++ c :: ahead)).Has c.value ↔ c.isGain = true :=
        calc (σ₀.contents.replay (told ++ c :: ahead)).Has c.value
            ↔ Change.stepAll ahead (σ₀.contents.replay (told ++ [c])).Has c.value := by
              rw [← hpast, Contents.replay_append, Contents.has_replay]
              exact Iff.rfl
          _ ↔ (σ₀.contents.replay (told ++ [c])).Has c.value :=
              Change.stepAll_iff_of_not_mem hnot
          _ ↔ c.isGain = true := by
              rw [Contents.has_replay_concat, Change.step_value_iff]
      have hknows' : Knows σ₀ (told ++ [c]) e' σ ahead rest fun q => gone q ∧ q ≠ c.value := by
        constructor
        · exact hrest
        · exact hnodup
        · rintro q ⟨hq, _⟩
          rw [hpast, hgraph]
          exact hknows.gone_has q hq
        · rintro q ⟨hq, _⟩
          exact Or.inr (hlost q hq)
        · intro q hq
          exact absurd hq (hempty q)
      refine ⟨ahead, rest, _, hknows', ?_⟩
      rw [hpast]
      exact step_moment c (fun _ _ => Iff.rfl) hvalue

private theorem withdraw {x : Quad} {own : Nat → Prop} (h : Recalls σ₀ told e σ held)
    (ha : σ₀.Announces own (told ++ e.queue σ) σ) (hawaits : ¬ e.Awaits σ)
    (hhas : σ.contents.Has x) (hgraph : x.graph = e.graph) :
    Recalls σ₀ told { e with withdrawn := e.withdrawn.insert x } σ ((Change.lost x).step held) := by
  obtain ⟨ahead, rest, gone, hknows, rfl⟩ := h
  have hmem : ∀ q, q ∈ e.withdrawn.insert x ↔ x = q ∨ q ∈ e.withdrawn :=
    fun q => OrderedSet.mem_insert
  have hknown : (σ₀.contents.replay (told ++ ahead)).Has x := by
    by_contra hnot
    have hgained := Change.gained_mem_of_stepAll hnot ((hknows.has_iff ha x).1 hhas)
    refine hawaits ⟨x, hgraph, ?_⟩
    rw [hknows.queue_eq]
    exact List.mem_append_right ahead hgained
  have hknows' : Knows σ₀ told { e with withdrawn := e.withdrawn.insert x } σ ahead rest
      fun q => gone q ∨ q = x := by
    constructor
    · exact hknows.queue_eq
    · exact hknows.ahead_nodup
    · rintro q (hq | rfl)
      · exact hknows.gone_has q hq
      · exact ⟨hknown, hgraph⟩
    · rintro q (hq | rfl)
      · rcases hknows.gone_from q hq with hw | hlost
        · exact Or.inl ((hmem q).2 (Or.inr hw))
        · exact Or.inr hlost
      · exact Or.inl ((hmem q).2 (Or.inl rfl))
    · intro q hq
      rcases (hmem q).1 hq with rfl | hq
      · exact Or.inr rfl
      · exact Or.inl (hknows.withdrawn_gone q hq)
  refine ⟨ahead, rest, _, hknows', ?_⟩
  funext q
  rw [Store.moment, not_or, ← and_assoc]
  rfl

private theorem reinstate {x : Quad} (h : Recalls σ₀ told e σ held) (hx : x ∈ e.withdrawn) :
    Recalls σ₀ told { e with withdrawn := e.withdrawn.erase x } σ ((Change.gained x).step held) := by
  obtain ⟨ahead, rest, gone, hknows, rfl⟩ := h
  have hmem : ∀ q, q ∈ e.withdrawn.erase x ↔ x ≠ q ∧ q ∈ e.withdrawn :=
    fun q => OrderedSet.mem_erase
  obtain ⟨hknown, _⟩ := hknows.gone_has x (hknows.withdrawn_gone x hx)
  have hknows' : Knows σ₀ told { e with withdrawn := e.withdrawn.erase x } σ ahead rest
      fun q => gone q ∧ q ≠ x := by
    constructor
    · exact hknows.queue_eq
    · exact hknows.ahead_nodup
    · rintro q ⟨hq, _⟩
      exact hknows.gone_has q hq
    · rintro q ⟨hq, hne⟩
      rcases hknows.gone_from q hq with hw | hlost
      · exact Or.inl ((hmem q).2 ⟨hne.symm, hw⟩)
      · exact Or.inr hlost
    · intro q hq
      obtain ⟨hne, hq⟩ := (hmem q).1 hq
      exact ⟨hknows.withdrawn_gone q hq, hne.symm⟩
  refine ⟨ahead, rest, _, hknows', ?_⟩
  exact step_moment (.gained x) (fun _ _ => Iff.rfl) (iff_of_true hknown rfl)

private theorem forget {own : Nat → Prop} (h : Recalls σ₀ told e σ held)
    (ha : σ₀.Announces own (told ++ e.queue σ) σ)
    (hgone : ∀ q ∈ e.withdrawn, ¬ σ.contents.Has q) (hqueue : e'.queue σ = e.queue σ)
    (hnone : e'.withdrawn = ∅) (hgraph : e'.graph = e.graph) : Recalls σ₀ told e' σ held := by
  obtain ⟨ahead, rest, gone, hknows, rfl⟩ := h
  refine ⟨ahead, rest, gone, ?_, rfl⟩
  constructor
  · rw [hqueue]
    exact hknows.queue_eq
  · exact hknows.ahead_nodup
  · rw [hgraph]
    exact hknows.gone_has
  · -- a quad that was withdrawn is stored no more, so its loss is among what still waits
    intro q hq
    rcases hknows.gone_from q hq with hw | hlost
    · obtain ⟨hhas, _⟩ := hknows.gone_has q hq
      have hlast : ¬ Change.stepAll rest (σ₀.contents.replay (told ++ ahead)).Has q := by
        rw [← hknows.has_iff ha q]
        exact hgone q hw
      exact Or.inr (Change.lost_mem_of_stepAll hhas hlast)
    · exact Or.inr hlost
  · intro q hq
    rw [hnone] at hq
    exact absurd hq (OrderedSet.not_mem_empty q)

end Recalls

/-! ## What all networks know -/

/-- All networks have been told of the changes `told` of the store since it was `σ₀`, and of others only
what comes next. -/
structure Follows (σ₀ : Store) (told : List (Change Quad)) (e : RuleEngine) (σ : Store) : Prop where
  subscribed : σ.feed.buffers.contains e.subscription = true
  announces : σ₀.Announces (· ≠ e.subscription) (told ++ e.queue σ) σ
  tracks : e.Tracks fun _ held => Recalls σ₀ told e σ held

namespace Follows

theorem relabel (h : Follows σ₀ told e σ) (hconfig : e'.config = e.config)
    (hsubscription : e'.subscription = e.subscription) (hpending : e'.pending = e.pending)
    (hwithdrawn : e'.withdrawn = e.withdrawn)
    (htracks : e'.Tracks fun _ held => Recalls σ₀ told e σ held) : Follows σ₀ told e' σ := by
  have hqueue : e'.queue σ = e.queue σ := by
    rw [queue, queue, hpending, hsubscription]
  have hgraph : e'.graph = e.graph := by
    rw [graph, graph, hconfig]
  refine ⟨?_, ?_, htracks.mono fun _ _ hheld => hheld.congr hqueue hwithdrawn hgraph⟩
  · rw [hsubscription]
    exact h.subscribed
  · rw [hsubscription, hqueue]
    exact h.announces

theorem queue_publish (h : Follows σ₀ told e σ)
    (ha : σ.Announces (fun _ => True) changes σ') : e.queue σ' = e.queue σ ++ changes :=
  queue_of_announces h.subscribed ha

theorem publish (h : Follows σ₀ told e σ) (ha : σ.Announces (fun _ => True) changes σ') :
    Follows σ₀ told e σ' where
  subscribed := (ha.waiting e.subscription trivial h.subscribed).1
  announces := by
    rw [h.queue_publish ha, ← List.append_assoc]
    exact h.announces.trans (ha.mono fun _ _ => trivial)
  tracks := h.tracks.mono fun _ _ hheld => hheld.publish (h.queue_publish ha)

/-- A network that takes in the store knows what it has when it has gone through all that waits. -/
theorem recalls_has (h : Follows σ₀ told e σ)
    (hnodup : ((e.queue σ).map Change.value).Nodup) (hnone : e.withdrawn = ∅) :
    Recalls σ₀ told e σ σ.contents.Has := by
  have hknows : Knows σ₀ told e σ (e.queue σ) [] fun _ => False := by
    constructor
    · exact (List.append_nil _).symm
    · exact hnodup
    · exact fun _ => False.elim
    · exact fun _ => False.elim
    · intro q hq
      rw [hnone] at hq
      exact OrderedSet.not_mem_empty q hq
  refine ⟨e.queue σ, [], _, hknows, ?_⟩
  funext q
  rw [h.announces.contents_eq, Store.moment, not_false_eq_true, and_true]

end Follows

/-! ## Failures -/

/-- The rule that failed does so over what the store had at some moment, after it had gone through the
first changes of its history, without some of the conclusions it had then. -/
def Explained (σ₀ : Store) (history : List (Change Quad)) (e : RuleEngine) (f : ConclusionFailure) :
    Prop :=
  ∃ r past gone, e.Runs r ∧ past <+: history ∧
    (∀ q, gone q → (σ₀.contents.replay past).Has q ∧ q.graph = e.graph) ∧
    r.FailsOver e.evaluator e.graph (σ₀.moment past gone) f

theorem Explained.mono (h : Explained σ₀ past e f) (hpast : past <+: history)
    (hruns : ∀ r, e.Runs r → e'.Runs r) (hevaluator : e'.evaluator = e.evaluator)
    (hgraph : e'.graph = e.graph) : Explained σ₀ history e' f := by
  obtain ⟨r, before, gone, hr, hbefore, hgone, hfails⟩ := h
  refine ⟨r, before, gone, hruns r hr, hbefore.trans hpast, ?_, ?_⟩
  · rw [hgraph]
    exact hgone
  · rw [hevaluator, hgraph]
    exact hfails

theorem Recalls.explains (h : Recalls σ₀ told e σ held) (hr : e.Runs r)
    (hfails : r.FailsOver e.evaluator e.graph held f) : Explained σ₀ (told ++ e.queue σ) e f := by
  obtain ⟨ahead, rest, gone, hknows, rfl⟩ := h
  refine ⟨r, told ++ ahead, gone, hr, ?_, hknows.gone_has, hfails⟩
  rw [hknows.queue_eq, ← List.append_assoc]
  exact List.prefix_append _ rest

/-! ## Rounds -/

/-- How much of the history of the store all networks know after a round. -/
def Round.toldAfter (told : List (Change Quad)) : Round → List (Change Quad)
  | .propagate c => told ++ [c]
  | _ => told

namespace RunState

variable {s s' s₁ last : RunState} {round : Round} {progress : Progress} {phase : Phase}

theorem takeChanges_follows (h : Follows σ₀ told s.engine s.store) :
    Follows σ₀ told s.takeChanges.engine s.takeChanges.store := by
  have hqueue := s.queue_takeChanges
  unfold takeChanges at hqueue ⊢
  split at hqueue
  · rename_i hempty
    rw [if_pos hempty]
    refine ⟨ChangeFeed.contains_drain h.subscribed, ?_, ?_⟩
    · rw [hqueue, ← List.append_nil (told ++ _)]
      exact h.announces.trans (.drain _ _)
    · have hrecalls := h.tracks.mono fun _ _ (hheld : Recalls σ₀ told s.engine s.store _) =>
        hheld.congr hqueue rfl rfl
      exact ⟨hrecalls.named, hrecalls.slots, hrecalls.accounts⟩
  · rename_i hsome
    rw [if_neg hsome]
    exact h

private theorem history_start (hready : s.Ready round progress) (told : List (Change Quad)) :
    round.toldAfter told ++ (s.start round).engine.queue s.store =
      told ++ s.engine.queue s.store := by
  cases hready with
  | propagate hpending =>
      rw [start, Round.toldAfter, queue, queue, hpending, List.append_assoc]
      rfl
  | withdraw => rfl
  | reinstate => rfl

private theorem recalls_start (h : Follows σ₀ told s.engine s.store)
    (hready : s.Ready round progress) (hwithin : round.IsWithin s.engine.graph)
    (hawaits : round.phase ≠ .outside → ¬ s.engine.Awaits s.store)
    (hheld : Recalls σ₀ told s.engine s.store held) :
    Recalls σ₀ (round.toldAfter told) (s.start round).engine s.store (round.change.step held) := by
  cases hready with
  | @propagate c rest hpending hnone _ =>
      refine hheld.propagate ?_ hnone hnone rfl
      rw [start, queue, queue, hpending]
      rfl
  | withdraw _ hhas _ =>
      have hquiet := hawaits (by simp [Round.phase])
      exact (hheld.withdraw h.announces hquiet hhas hwithin.graph_eq).congr rfl rfl rfl
  | reinstate _ hmem => exact (hheld.reinstate (hmem _ List.mem_cons_self)).congr rfl rfl rfl

private theorem follows_of_inject (h : Follows σ₀ told s.engine s.store)
    (hready : s.Ready round progress) (hwithin : round.IsWithin s.engine.graph)
    (hawaits : round.phase ≠ .outside → ¬ s.engine.Awaits s.store)
    (hinject : (s.start round).inject round.change = .ok s₁) :
    Follows σ₀ (round.toldAfter told) s₁.engine s₁.store ∧
      s₁.engine.queue s₁.store = (s.start round).engine.queue s.store ∧
      ∀ f ∈ s₁.report.failures, f ∈ s.report.failures ∨
        Explained σ₀ (round.toldAfter told ++ s₁.engine.queue s₁.store) s₁.engine f := by
  obtain ⟨failures, e, hrun, hsame, rfl⟩ := inject_eq_ok hinject
  have hstart := tracks_start s round h.tracks
  have hqueue : e.queue (s.start round).store = (s.start round).engine.queue s.store := by
    rw [queue, queue, hsame.pending_eq, hsame.subscription_eq, store_start]
  have hrecalls : ∀ held, Recalls σ₀ told s.engine s.store held →
      Recalls σ₀ (round.toldAfter told) e (s.start round).store (round.change.step held) :=
    fun held hheld => (recalls_start h hready hwithin hawaits hheld).congr hqueue hsame.withdrawn_eq
      hsame.graph_eq
  obtain ⟨hrule, htold, _⟩ := hstart.of_inject hrun
  refine ⟨⟨?_, ?_, htold.mono fun _ _ => ?_⟩, hqueue, fun f hf => ?_⟩
  · rw [store_start, hsame.subscription_eq, subscription_start]
    exact h.subscribed
  · rw [hqueue, history_start hready, store_start, hsame.subscription_eq, subscription_start]
    exact h.announces
  · rintro ⟨before, hbefore, rfl⟩
    exact hrecalls before hbefore
  · rcases List.mem_append.1 hf with hf | hf
    · rw [failures_start] at hf
      exact Or.inl hf
    · obtain ⟨r, held, hr, hheld, hfails⟩ := hstart.failsOver_of_inject hrun f hf
      have hruns : e.Runs r := ⟨hr.1, (hrule r.id).trans hr.2⟩
      rw [← hsame.evaluator_eq, ← hsame.graph_eq] at hfails
      exact Or.inr ((hrecalls held hheld).explains hruns hfails)

private theorem follows_of_settle (h : Follows σ₀ told s.engine s.store)
    (hsettle : s.settle phase = .ok s') :
    Follows σ₀ told s'.engine s'.store ∧
      s.engine.queue s.store <+: s'.engine.queue s'.store ∧
      ((phase = .outside → s.engine.support.raised = []) →
        s'.engine.Awaits s'.store → s.engine.Awaits s.store) ∧
      s'.engine.support.raised = [] := by
  obtain ⟨suspects, deferred, hengine, _⟩ := (settle_touches hsettle).engine_eq
  obtain ⟨changes, hall, hannounces⟩ := (settle_effects hsettle).publishes.announces
  have hannounces' : s.store.Announces (fun _ => True) changes s'.store := hannounces
  have hpublished := h.publish hannounces'
  have hqueue : s'.engine.queue s'.store = s.engine.queue s.store ++ changes := by
    rw [← h.queue_publish hannounces', hengine]
    rfl
  refine ⟨?_, ?_, fun hnone => ?_, ?_⟩
  · rw [hengine]
    exact hpublished.relabel rfl rfl rfl rfl
      ⟨hpublished.tracks.named, hpublished.tracks.slots, hpublished.tracks.accounts.settled⟩
  · rw [hqueue]
    exact List.prefix_append _ changes
  · rintro ⟨q, hgraph, hq⟩
    rw [hqueue] at hq
    rw [hengine] at hgraph
    rcases List.mem_append.1 hq with hq | hq
    · exact ⟨q, hgraph, hq⟩
    · rcases hall _ hq with ⟨hphase, x, hx, _⟩ | ⟨_, x, _, heq⟩
      · rw [hnone hphase] at hx
        exact absurd hx List.not_mem_nil
      · cases heq
  · rw [hengine]
    rfl

/-- What a round leaves to be told of, and what it reports. -/
structure Recounts (σ₀ : Store) (told : List (Change Quad)) (round : Round) (s s' : RunState) :
    Prop where
  follows : Follows σ₀ (round.toldAfter told) s'.engine s'.store
  history : told ++ s.engine.queue s.store <+:
    round.toldAfter told ++ s'.engine.queue s'.store
  awaits : round.phase ≠ .outside → s'.engine.Awaits s'.store → s.engine.Awaits s.store
  raised_eq : s'.engine.support.raised = []
  /-- What is reported fails over what the networks know after the round. -/
  failures : ∀ f ∈ s'.report.failures, f ∈ s.report.failures ∨
    Explained σ₀ (round.toldAfter told ++ s'.engine.queue s'.store) s'.engine f

private theorem awaits_of_start (hphase : round.phase ≠ .outside) (hgraph : e.graph = s.engine.graph)
    (hqueue : e.queue σ = (s.start round).engine.queue s.store) (h : e.Awaits σ) :
    s.engine.Awaits s.store := by
  obtain ⟨q, hq, hgained⟩ := h
  refine ⟨q, hq.trans hgraph, ?_⟩
  rw [hqueue] at hgained
  cases round with
  | propagate c => exact absurd rfl hphase
  | withdraw q | reinstate q => exact hgained

theorem perform_recounts (h : Follows σ₀ told s.engine s.store) (hready : s.Ready round progress)
    (hwithin : round.IsWithin s.engine.graph)
    (hawaits : round.phase ≠ .outside → ¬ s.engine.Awaits s.store)
    (hperform : s.perform round = .ok s') : Recounts σ₀ told round s s' := by
  obtain ⟨s₁, hinject, hsettle⟩ := Result.bind_eq_ok_iff.1 hperform
  obtain ⟨htold, hqueue, hfailures⟩ := follows_of_inject h hready hwithin hawaits hinject
  obtain ⟨hfollows, hprefix, hawaits', hraised⟩ := follows_of_settle htold hsettle
  have hhistory : round.toldAfter told ++ s₁.engine.queue s₁.store <+:
      round.toldAfter told ++ s'.engine.queue s'.store := (List.prefix_append_right_inj _).2 hprefix
  have htouches := settle_touches hsettle
  refine ⟨hfollows, ?_, fun hphase haw => ?_, hraised, fun f hf => ?_⟩
  · rw [hqueue, history_start hready] at hhistory
    exact hhistory
  · obtain ⟨_, _, _, hsame, rfl⟩ := inject_eq_ok hinject
    have hgraph := hsame.graph_eq.trans (graph_start s round)
    exact awaits_of_start hphase hgraph hqueue (hawaits' (fun hp => absurd hp hphase) haw)
  · rw [htouches.failures_eq] at hf
    rcases hfailures f hf with hf | hexplained
    · exact Or.inl hf
    · obtain ⟨_, _, hengine, _⟩ := htouches.engine_eq
      rw [hengine] at hhistory ⊢
      exact Or.inr (hexplained.mono hhistory (fun _ => id) rfl rfl)

private theorem follows_of_finalize (h : Follows σ₀ told s.engine s.store)
    (hzero : ∀ q ∈ s.engine.withdrawn, s.engine.support.total q = 0)
    (hfinalize : s.finalize = .ok last) :
    Follows σ₀ told last.engine last.store ∧
      s.engine.queue s.store <+: last.engine.queue last.store := by
  obtain ⟨losses, gains, hannounces, _, _, _, hgone⟩ := finalize_publishes hzero hfinalize
  have hpublished := h.publish hannounces
  have hqueue := h.queue_publish hannounces
  obtain ⟨e, σ, report⟩ := last
  obtain rfl := (finalize_cleared hfinalize).engine_eq
  have hforgets : ∀ held, Recalls σ₀ told s.engine σ held →
      Recalls σ₀ told { s.engine with withdrawn := ∅, deferred := ∅ } σ held := fun _ hheld =>
    hheld.forget hpublished.announces hgone rfl rfl rfl
  have hforgotten := hpublished.tracks.mono fun _ => hforgets
  refine ⟨⟨hpublished.subscribed, hpublished.announces,
    ⟨hforgotten.named, hforgotten.slots, hforgotten.accounts⟩⟩, ?_⟩
  exact ⟨_, hqueue.symm⟩

/-! ## Runs -/

/-- The networks know of one history of the store, and every failure reported is explained by it. No
conclusion that came is waiting while quads are withdrawn. -/
structure InStep (σ₀ : Store) (s : RunState) (progress : Progress) : Prop where
  moment : ∃ told, Follows σ₀ told s.engine s.store ∧
    ∀ f ∈ s.report.failures, Explained σ₀ (told ++ s.engine.queue s.store) s.engine f
  raised_eq : s.engine.support.raised = []
  awaits : progress ≠ .idle ∨ s.engine.isRederiving = true → ¬ s.engine.Awaits s.store
  todo : ∀ todo, progress = .reinstating todo →
    todo.Nodup ∧ ∀ q ∈ todo, q ∈ s.engine.withdrawn

/-- What is decided between two rounds. -/
structure Decides (σ₀ : Store) (s : RunState) (step : Option (Round × Progress)) : Prop where
  inStep : InStep σ₀ s .idle
  ready : ∀ round progress, step = some (round, progress) →
    s.Ready round progress ∧ (round.phase ≠ .outside → ¬ s.engine.Awaits s.store)

private theorem not_waits (hidle : s.engine.isRederiving = false) :
    ¬ (Progress.idle ≠ .idle ∨ s.engine.isRederiving = true) := by
  rintro (hne | hrederiving)
  · exact hne rfl
  · rw [hidle] at hrederiving
    exact Bool.false_ne_true hrederiving

namespace InStep

private theorem look (h : InStep σ₀ s progress) : InStep σ₀ s.nextSuspect.2 progress := by
  obtain ⟨told, hfollows, hexplained⟩ := h.moment
  have hfollows' : Follows σ₀ told s.nextSuspect.2.engine s.nextSuspect.2.store :=
    hfollows.relabel rfl rfl rfl rfl
      ⟨hfollows.tracks.named, hfollows.tracks.slots, hfollows.tracks.accounts⟩
  exact ⟨⟨told, hfollows', hexplained⟩, h.raised_eq, h.awaits, h.todo⟩

private theorem takeChanges (h : InStep σ₀ s .idle) (hidle : s.engine.isRederiving = false) :
    InStep σ₀ s.takeChanges .idle := by
  obtain ⟨told, hfollows, hexplained⟩ := h.moment
  have htaken := takeChanges_follows hfollows
  have hqueue := s.queue_takeChanges
  obtain ⟨pending, store, heq⟩ := s.takeChanges_eq
  rw [heq] at htaken hqueue ⊢
  refine ⟨⟨told, htaken, fun f hf => ?_⟩, h.raised_eq, fun hwaits => ?_, nofun⟩
  · rw [hqueue]
    exact (hexplained f hf).mono (List.prefix_refl _) (fun _ => id) rfl rfl
  · exact absurd hwaits (not_waits hidle)

private theorem nextOutside {step : Option (Round × Progress)} (h : InStep σ₀ s .idle)
    (hidle : s.engine.isRederiving = false) (hnext : s.nextOutside = (s', step)) :
    Decides σ₀ s' step := by
  have htaken := h.takeChanges hidle
  cases nextOutside_eq_iff.1 hnext with
  | propagate =>
      refine ⟨htaken, fun round progress heq => ⟨ready_of_nextOutside hidle (heq ▸ hnext), ?_⟩⟩
      cases heq
      exact fun hphase => absurd rfl hphase
  | withdraw hpending _ =>
      refine ⟨htaken.look, fun round progress heq => ⟨ready_of_nextOutside hidle (heq ▸ hnext), ?_⟩⟩
      rintro _ ⟨q, _, hq⟩
      have hq' : .gained q ∈ s.takeChanges.engine.queue s.takeChanges.store := hq
      rw [takeChanges_queue_eq hpending] at hq'
      exact List.not_mem_nil hq'
  | stop => exact ⟨htaken.look, fun _ _ heq => by cases heq⟩

private theorem nextInPass {step : Option (Round × Progress)} (h : InStep σ₀ s progress)
    (hnext : s.nextInPass progress = (s', step)) : InStep σ₀ s' progress :=
  nextInPass_inv (P := fun s => InStep σ₀ s progress) (fun _ => look) h hnext

private theorem finalize (h : InStep σ₀ s progress)
    (hzero : ∀ q ∈ s.engine.withdrawn, s.engine.support.total q = 0)
    (hfinalize : s.finalize = .ok last) :
    InStep σ₀ last .idle ∧ last.engine.isRederiving = false := by
  obtain ⟨told, hfollows, hexplained⟩ := h.moment
  obtain ⟨hlast, hprefix⟩ := follows_of_finalize hfollows hzero hfinalize
  have hcleared := finalize_cleared hfinalize
  have hidle := hcleared.isRederiving_eq
  refine ⟨⟨⟨told, hlast, fun f hf => ?_⟩, ?_, fun hwaits => ?_, nofun⟩, hidle⟩
  · rw [hcleared.failures_eq] at hf
    rw [hcleared.engine_eq] at hprefix ⊢
    exact (hexplained f hf).mono ((List.prefix_append_right_inj told).2 hprefix) (fun _ => id) rfl rfl
  · rw [hcleared.engine_eq]
    exact h.raised_eq
  · exact absurd hwaits (not_waits hidle)

theorem of_settle (hfollows : Follows σ₀ told s.engine s.store)
    (hexplained : ∀ f ∈ s.report.failures,
      Explained σ₀ (told ++ s.engine.queue s.store) s.engine f)
    (hawaits : s.engine.isRederiving = true →
      s.engine.support.raised = [] ∧ ¬ s.engine.Awaits s.store)
    (hsettle : s.settle .outside = .ok s') : InStep σ₀ s' .idle := by
  obtain ⟨hfollows', hprefix, hkept, hraised⟩ := follows_of_settle hfollows hsettle
  have htouches := settle_touches hsettle
  obtain ⟨suspects, deferred, hengine, hdeferred⟩ := htouches.engine_eq
  refine ⟨⟨told, hfollows', fun f hf => ?_⟩, hraised, fun hwaits => ?_, nofun⟩
  · rw [htouches.failures_eq] at hf
    rw [hengine] at hprefix ⊢
    exact (hexplained f hf).mono ((List.prefix_append_right_inj told).2 hprefix) (fun _ => id) rfl rfl
  · rcases hwaits with hne | hrederiving
    · exact absurd rfl hne
    rw [hengine, hdeferred rfl] at hrederiving
    obtain ⟨hnone, hnot⟩ := hawaits hrederiving
    exact fun haw => hnot (hkept (fun _ => hnone) haw)

theorem next {step : Option (Round × Progress)} (h : InStep σ₀ s progress)
    (hnext : s.next progress = .ok (s', step)) : Decides σ₀ s' step := by
  cases next_eq_ok_iff.1 hnext with
  | outside hidle heq =>
      obtain ⟨rfl, hidle⟩ := hidle
      exact h.nextOutside hidle heq
  | inPass hpass heq =>
      have hwaits : progress ≠ .idle ∨ s.engine.isRederiving = true := by
        rw [not_and_or, Bool.not_eq_false] at hpass
        exact hpass
      have hnot := h.awaits hwaits
      have h₁ := h.nextInPass heq
      obtain ⟨suspects, rfl⟩ := nextInPass_keeps heq
      refine ⟨⟨h₁.moment, h₁.raised_eq, fun _ => hnot, nofun⟩, ?_⟩
      intro round progress heq'
      cases heq'
      exact ⟨ready_of_nextInPass h.todo heq, fun _ => hnot⟩
  | finish _ heq hfinalize hlast =>
      obtain ⟨h₂, hidle⟩ := (h.nextInPass heq).finalize (nextInPass_eq_none heq) hfinalize
      exact h₂.nextOutside hidle hlast

private theorem isRederiving_of_propagate {c : Change Quad} (hwithdrawn : s.engine.withdrawn = ∅)
    (hdeferred : s.engine.deferred = ∅) (hperform : s.perform (.propagate c) = .ok s') :
    s'.engine.isRederiving = false := by
  have hspares := perform_spares hperform
  refine isRederiving_eq_false_iff.2 ⟨?_, ?_⟩
  · rw [hspares.withdrawn_eq]
    exact hwithdrawn
  · rw [hspares.deferred_eq rfl]
    exact hdeferred

theorem perform (h : Decides σ₀ s (some (round, progress))) (hwithin : round.IsWithin s.engine.graph)
    (hperform : s.perform round = .ok s') : InStep σ₀ s' progress := by
  obtain ⟨hready, hawaits⟩ := h.ready round progress rfl
  obtain ⟨told, hfollows, hexplained⟩ := h.inStep.moment
  have hround := perform_recounts hfollows hready hwithin hawaits hperform
  have hspares := perform_spares hperform
  have hgraph : s'.engine.graph = s.engine.graph := by
    rw [graph, graph, hspares.config_eq]
  have hruns : ∀ r, s.engine.Runs r → s'.engine.Runs r := fun r hr =>
    ⟨hr.1, ((perform_tracks hfollows.tracks hperform).2 r.id).trans hr.2⟩
  refine ⟨⟨_, hround.follows, fun f hf => ?_⟩, hround.raised_eq, fun hwaits => ?_,
    hready.isDue hspares.withdrawn_eq⟩
  · rcases hround.failures f hf with hf | hfails
    · exact (hexplained f hf).mono hround.history hruns hspares.evaluator_eq hgraph
    · exact hfails
  · have hinside : round.phase ≠ .outside := by
      cases hready with
      | propagate _ hwithdrawn hdeferred =>
          exact absurd hwaits (not_waits (isRederiving_of_propagate hwithdrawn hdeferred hperform))
      | withdraw _ _ _ => simp [Round.phase]
      | reinstate _ _ => simp [Round.phase]
    exact fun haw => hawaits hinside (hround.awaits hinside haw)

theorem run {e₁ : RuleEngine} {σ₁ : Store} (h : InStep σ₀ s progress) (hconfined : Confined e₁ σ₁ s)
    (rounds : Nat) : EndsIn (fun s => InStep σ₀ s .idle) (s.run progress rounds) := by
  have hperform : ∀ {s s' : RunState} {round : Round} {progress : Progress}, Confined e₁ σ₁ s →
      Decides σ₀ s (some (round, progress)) → s.Ready round progress → s.perform round = .ok s' →
      InStep σ₀ s' progress := by
    intro s s' round progress hconfined hdecides hready hrun
    exact perform hdecides (hconfined.graph_eq ▸ hconfined.isWithin hready) hrun
  refine ((Confined.isKept e₁ σ₁).run_induction (InStep σ₀) (Decides σ₀) (fun _ => next) hperform
    hconfined h.todo h rounds).mono ?_
  rintro s' ⟨_, step, hlast⟩
  exact hlast.inStep

end InStep

end RunState

end Entail
