import Entail.Proofs.Rules.Convergence
import Entail.Proofs.Rules.Interrupted
/-!
# Flushes without flicker

With positive rules a flush answers gains with gains and losses with losses. It may withdraw quads from
the networks and reinstate them later, but it takes a quad from the store only when the quad cannot be
derived any more.
-/

namespace Entail

namespace RunState

open RuleEngine

variable {s s' s₁ : RunState} {progress progress' : Progress} {round : Round} {c : Change Quad}
  {step : Option (Round × Progress)}

theorem Allows.side (h : s.Allows round c) (hpos : s.engine.IsPositive) :
    ∃ c', round = .propagate c' ∧ c.isGain = c'.isGain := by
  rcases h with ⟨hphase, q, hraises, rfl⟩ | ⟨hphase, q, hlowers, rfl⟩
  · cases round with
    | propagate c' =>
        cases c' with
        | gained x => exact ⟨_, rfl, rfl⟩
        | lost x => exact absurd hraises (not_raises_of_lost hpos (.propagate (.lost x)) rfl q)
    | withdraw x => cases hphase
    | reinstate x => cases hphase
  · cases round with
    | propagate c' =>
        cases c' with
        | gained x => exact absurd hlowers (not_lowers_of_gained hpos (.propagate (.gained x)) rfl q)
        | lost x => exact ⟨_, rfl, rfl⟩
    | withdraw x => exact absurd rfl hphase
    | reinstate x => exact absurd hlowers (not_lowers_of_gained hpos (.reinstate x) rfl q)

private theorem perform_announces (h : s.Orderly progress)
    (hnext : s.next progress = .ok (s₁, some (round, progress')))
    (hperform : s₁.perform round = .ok s') :
    s₁.Frame s' ∧ s'.engine.subscription = s₁.engine.subscription ∧
      (∀ q, round.change = .gained q →
        s'.engine.suspects = (s₁.start round).engine.suspects) ∧
      ∃ changes, s₁.store.Announces (· ≠ s₁.engine.subscription) changes s'.store ∧
        ∀ c ∈ changes, ∃ c', round = .propagate c' ∧ c.isGain = c'.isGain := by
  obtain ⟨_, _, hnext', hdecided, hframe⟩ := next_spec h.upholds
  obtain ⟨rfl, rfl⟩ := Result.pair_eq_of_eq_ok hnext hnext'
  obtain ⟨hstanding, hready⟩ := hdecided
  have hpos := hframe.isPositive h.positive
  obtain ⟨_, hperform', hperforms, _, hframe'⟩ := performs_spec hstanding hready
  obtain rfl := Result.eq_of_eq_ok hperform hperform'
  obtain ⟨changes, hall, hannounces⟩ := hperforms.publishes.announces
  have hunsuspected : ∀ q, round.change = .gained q →
      s'.engine.suspects = (s₁.start round).engine.suspects :=
    fun q hq => hperforms.suspects_eq (not_lowers_of_gained hpos round hq)
  have hside : ∀ c ∈ changes, ∃ c', round = .propagate c' ∧ c.isGain = c'.isGain :=
    fun c hc => (hall c hc).side hpos
  have hannounces' : s₁.store.Announces (· ≠ s₁.engine.subscription) changes s'.store :=
    hannounces.mono fun _ _ => trivial
  exact ⟨hframe', hperforms.subscription_eq, hunsuspected, changes, hannounces', hside⟩

/-! ## Losses -/

/-- The store holds what the rules conclude over it. -/
def IsComplete (s : RunState) : Prop :=
  ∀ q, s.Derives q → s.store.contents.Has q

theorem IsComplete.keeps (h : s.IsComplete) (hkeeps : s.Keeps s') : s'.IsComplete := by
  intro q hq
  rw [hkeeps.contents_eq]
  exact h q ((hkeeps.frame.derives_iff hkeeps.contents_eq).1 hq)

/-- While only losses wait, the networks have seen all that is stored. -/
theorem Standing.isComplete (h : s.Standing False [] []) (hpos : s.engine.IsPositive)
    (hwithdrawn : s.engine.withdrawn = ∅) (hdeferred : s.engine.deferred = ∅)
    (hloss : ∀ c ∈ s.engine.queue s.store, c.isGain = false) : s.IsComplete := by
  rintro q ⟨r, t, hruns, hout, hc⟩
  obtain ⟨held, hheld, hiff⟩ := h.ledger.tracks.fires_iff hruns
  have hseen : ∀ x, s.store.contents.Has x → held x := by
    intro x hx
    have hnot : x ∉ s.engine.withdrawn := by
      rw [hwithdrawn]
      exact OrderedSet.not_mem_empty x
    by_contra hunseen
    have hgained := Change.gained_mem_of_stepAll hunseen (((hheld x).1 hnot).2 hx)
    cases hloss _ hgained
  have hfires := (hiff t).2 ((hpos r.id r hruns.2).mono hseen hout)
  have hsupported := h.ledger.tracks.total_pos_iff.2 ⟨r, t, hfires, hc⟩
  rcases h.ledger.complete q hsupported with hstored | hqueued | hraised
  · exact hstored
  · rw [hdeferred] at hqueued
    exact absurd hqueued (OrderedSet.not_mem_empty q)
  · exact absurd hraised List.not_mem_nil

theorem Orderly.isComplete (h : s.Orderly progress)
    (hloss : ∀ c ∈ s.engine.queue s.store, c.isGain = false) : s.IsComplete := by
  by_cases hidle : progress = .idle
  · obtain ⟨hwithdrawn, hdeferred⟩ := h.idle hidle
    exact h.upholds.standing.isComplete h.positive hwithdrawn hdeferred hloss
  · exact (h.passing hidle).complete

/-- Only losses lead from `s` to `s'`, which holds what the rules conclude over what is left. -/
structure Sheds (s s' : RunState) : Prop where
  complete : s'.IsComplete
  frame : s.Frame s'
  subscription_eq : s'.engine.subscription = s.engine.subscription
  losses : ∃ changes, s.store.Announces (· ≠ s.engine.subscription) changes s'.store ∧
    ∀ c ∈ changes, c.isGain = false

theorem Sheds.of_keeps (h : s.IsComplete) (hkeeps : s.Keeps s') : s.Sheds s' where
  complete := h.keeps hkeeps
  frame := hkeeps.frame
  subscription_eq := hkeeps.subscription_eq
  losses := ⟨[], hkeeps.announces, fun _ hc => absurd hc List.not_mem_nil⟩

theorem Sheds.trans (h : s.Sheds s₁) (h' : s₁.Sheds s') : s.Sheds s' where
  complete := h'.complete
  frame := h.frame.trans h'.frame
  subscription_eq := h'.subscription_eq.trans h.subscription_eq
  losses := by
    obtain ⟨changes, hannounces, hlosses⟩ := h.losses
    obtain ⟨more, hmore, hmore'⟩ := h'.losses
    rw [h.subscription_eq] at hmore
    have hall : ∀ c ∈ changes ++ more, c.isGain = false :=
      List.forall_mem_append.2 ⟨hlosses, hmore'⟩
    exact ⟨changes ++ more, hannounces.trans hmore, hall⟩

private theorem sheds_of_finalize (h : s.Passing) (hstanding : s.Standing False [] [])
    (hpos : s.engine.IsPositive)
    (hzero : ∀ q ∈ s.engine.withdrawn, s.engine.support.total q = 0)
    (hfinalize : s.finalize = .ok s') :
    s.Sheds s' ∧ s'.Standing False [] [] ∧ ∀ c ∈ s'.engine.queue s'.store, c.isGain = false := by
  obtain ⟨hstanding', hframe, hengine, _, hall, hannounces⟩ :=
    h.finalize hstanding hzero hfinalize
  have hlosses : ∀ c ∈ s'.engine.queue s'.store, c.isGain = false := by
    intro c hc
    obtain ⟨q, _, rfl⟩ := hall c hc
    rfl
  have hwithdrawn : s'.engine.withdrawn = ∅ := by
    rw [hengine]
  have hdeferred : s'.engine.deferred = ∅ := by
    rw [hengine]
  have hsubscription : s'.engine.subscription = s.engine.subscription := by
    rw [hengine]
  have hcomplete : s'.IsComplete :=
    hstanding'.isComplete (hframe.isPositive hpos) hwithdrawn hdeferred hlosses
  have hsheds : s.Sheds s' :=
    ⟨hcomplete, hframe, hsubscription, _, hannounces.mono fun _ _ => trivial, hlosses⟩
  exact ⟨hsheds, hstanding', hlosses⟩

theorem Orderly.next_sheds (h : s.Orderly progress)
    (hloss : ∀ c ∈ s.engine.queue s.store, c.isGain = false)
    (hnext : s.next progress = .ok (s₁, step)) :
    s.Sheds s₁ ∧ ∀ c progress', step = some (.propagate c, progress') → c.isGain = false := by
  have hcomplete := h.isComplete hloss
  by_cases hidle : progress = .idle
  · subst hidle
    have houtside := h.outside hnext
    refine ⟨.of_keeps hcomplete houtside.keeps, ?_⟩
    rintro c progress' rfl
    exact hloss c houtside.mem_queue
  · obtain ⟨choice, hnext', hwithin⟩ := next_within h.upholds hidle h.suspects
    have heq : choice = (s₁, step) := Result.eq_of_eq_ok hnext' hnext
    cases hwithin with
    | withdraw hkeeps =>
        obtain ⟨rfl, rfl⟩ := Prod.mk.inj heq
        refine ⟨.of_keeps hcomplete hkeeps, fun c progress' hround => ?_⟩
        cases hround
    | reinstate hkeeps _ =>
        obtain ⟨rfl, rfl⟩ := Prod.mk.inj heq
        refine ⟨.of_keeps hcomplete hkeeps, fun c progress' hround => ?_⟩
        cases hround
    | finish hkeeps _ hstanding hzero hfinalize =>
        obtain ⟨hsheds, hstanding', hlosses⟩ := sheds_of_finalize ((h.passing hidle).keeps hkeeps)
          hstanding (hkeeps.frame.isPositive h.positive) hzero hfinalize
        have houtside := nextOutside_outside hstanding'
        rw [heq] at houtside
        have hfirst : s.Sheds _ := .of_keeps hcomplete hkeeps
        have hlast : Sheds _ s₁ := .of_keeps hsheds.complete houtside.keeps
        refine ⟨(hfirst.trans hsheds).trans hlast, ?_⟩
        rintro c progress' rfl
        exact hlosses c houtside.mem_queue

/-- However long a run goes on that starts with losses, it sheds quads and nothing else. -/
theorem Orderly.last_sheds (h : s.Orderly progress)
    (hloss : ∀ c ∈ s.engine.queue s.store, c.isGain = false) (rounds : Nat) :
    s.Sheds (s.last progress rounds) := by
  induction rounds generalizing s progress with
  | zero =>
      obtain ⟨s₁, step, hnext, _⟩ := next_spec h.upholds
      rw [last_zero hnext]
      exact (h.next_sheds hloss hnext).1
  | succ rounds ih =>
      rcases h.goes with ⟨s', hstop⟩ | ⟨s', progress', hgoes⟩
      · rw [last_of_stop hstop]
        exact (h.next_sheds hloss hstop).1
      · obtain ⟨s₁, round, hnext, hperform⟩ := hgoes.steps
        obtain ⟨hsheds, hround⟩ := h.next_sheds hloss hnext
        have hloss' := (hgoes.moves.losing hgoes.orderly hloss).1
        have hperformed : s₁.Sheds s' := by
          obtain ⟨hframe, hsubscription, _, changes, hannounces, hside⟩ :=
            perform_announces h hnext hperform
          have hlosses : ∀ c ∈ changes, c.isGain = false := by
            intro c hc
            obtain ⟨c', rfl, heq⟩ := hside c hc
            rw [heq]
            exact hround c' progress' rfl
          exact ⟨hgoes.orderly.isComplete hloss', hframe, hsubscription, changes, hannounces,
            hlosses⟩
        have hrest := ih hgoes.orderly hloss'
        rw [hgoes.last_eq]
        exact (hsheds.trans hperformed).trans hrest

/-! ## Gains -/

theorem Orderly.last_of_gains (h : s.Orderly .idle) (hsuspects : s.engine.suspects = ∅)
    (hgain : ∀ c ∈ s.engine.queue s.store, c.isGain = true) (rounds : Nat) :
    ∃ changes, s.store.Announces (· ≠ s.engine.subscription) changes
      (s.last .idle rounds).store ∧ ∀ c ∈ changes, c.isGain = true := by
  induction rounds generalizing s with
  | zero =>
      obtain ⟨s₁, step, hnext, _⟩ := next_spec h.upholds
      rw [last_zero hnext]
      exact ⟨[], (h.outside hnext).keeps.announces, by simp⟩
  | succ rounds ih =>
      rcases h.goes with ⟨s', hstop⟩ | ⟨s', progress', hgoes⟩
      · rw [last_of_stop hstop]
        exact ⟨[], (h.outside hstop).keeps.announces, by simp⟩
      · obtain ⟨s₁, round, hnext, hperform⟩ := hgoes.steps
        obtain ⟨_, hsubscription, hunsuspected, published, hpublished, hside⟩ :=
          perform_announces h hnext hperform
        cases h.outside hnext with
        | withdraw _ hsuspect _ =>
            -- gains raise no suspicion, so there is no pass
            rw [hsuspects] at hsuspect
            exact absurd hsuspect (OrderedSet.not_mem_empty _)
        | @propagate _ c rest _ hqueue _ hkept hkeeps =>
            cases c with
            | lost q =>
                rw [hqueue] at hgain
                cases hgain _ List.mem_cons_self
            | gained q =>
                have hnone : s'.engine.suspects = ∅ := by
                  rw [hunsuspected q rfl]
                  exact hkept.trans hsuspects
                obtain ⟨more, hmore, hmore'⟩ :=
                  ih hgoes.orderly hnone (hgoes.moves.gaining hgain).1
                rw [hsubscription, hkeeps.subscription_eq] at hmore
                rw [hkeeps.subscription_eq] at hpublished
                have hgains : ∀ c ∈ [] ++ published ++ more, c.isGain = true := by
                  rw [List.nil_append]
                  refine List.forall_mem_append.2 ⟨fun c hc => ?_, hmore'⟩
                  obtain ⟨c', heq, hgain'⟩ := hside c hc
                  cases heq
                  exact hgain'
                rw [hgoes.last_eq]
                exact ⟨_, (hkeeps.announces.trans hpublished).trans hmore, hgains⟩

/-! ## What stays derivable -/

theorem Sheds.has_of_derivable (h : s.Sheds s') (hs : s.Orderly progress) {q : Quad}
    (hq : Derivable s.engine.evaluator s.engine.graph s.engine.activeRules
      (IsBase s.engine.graph s.store.contents.Has) q) : s'.store.contents.Has q := by
  have hruns : ∀ r ∈ s.engine.activeRules, s.engine.Runs r :=
    fun r => hs.upholds.standing.ledger.tracks.mem_activeRules_iff.1
  have hholds : HoldsConclusions s.engine.evaluator s.engine.graph s.engine.activeRules
      s'.store.contents.Has := by
    intro r hr t x hout hc
    refine h.complete x ⟨r, t, h.frame.runs_iff.2 (hruns r hr), ?_, ?_⟩
    · rwa [h.frame.evaluator_eq]
    · rwa [h.frame.evaluator_eq, h.frame.graph_eq]
  rw [isBase_congr h.frame.base_iff] at hq
  exact HoldsConclusions.of_derivable (fun r hr => hs.positive r.id r (hruns r hr).2) hholds hq

end RunState

/-! ## Flushes -/

open RuleEngine RunState

variable {config : Config} {ev : Evaluator} {e : RuleEngine} {σ : Store} {turns : List Turn}
  {mutations : List Mutation}

private theorem flush_store (e : RuleEngine) (σ : Store) :
    (e.flush σ).store = ((e.begin σ).last .idle e.config.maxRounds).store := by
  have hflush : e.flush σ = .ofRun ((e.begin σ).run .idle e.config.maxRounds) := rfl
  rw [hflush, last]
  cases (e.begin σ).run .idle e.config.maxRounds with
  | ok s => rfl
  | error stopped => rfl

/-- An engine of positive rules that is quiet after any history, and a batch of changes outside the
graph of the conclusions. However the next flush ends, it publishes to the other subscriptions only
gains if the batch consists of gains, and only losses if it consists of losses, each quad at most once.
What is derivable from the quads that are left is not lost, not even for a while. -/
theorem flush_without_flicker (h : History config ev e σ turns) (hquiet : e.IsQuiet σ)
    (hpositive : ∀ t ∈ turns, ∀ r, t.request = .add r → r.IsPositive)
    (hbase : ∀ m ∈ mutations, ∀ q ∈ m.quads, q.graph ≠ e.graph) :
    let batch := mutations.foldl Mutation.carryOut σ
    ((∀ c ∈ e.queue batch, c.isGain = true) → ∃ changes,
      batch.Announces (· ≠ e.subscription) changes (e.flush batch).store ∧
        (∀ c ∈ changes, c.isGain = true) ∧ (changes.map Change.value).Nodup) ∧
    ((∀ c ∈ e.queue batch, c.isGain = false) → ∃ changes,
      batch.Announces (· ≠ e.subscription) changes (e.flush batch).store ∧
        (∀ c ∈ changes, c.isGain = false) ∧ (changes.map Change.value).Nodup ∧
        ∀ q, Derivable ev e.graph e.activeRules (IsBase e.graph batch.contents.Has) q →
          .lost q ∉ changes) := by
  intro batch
  have hpos : e.IsPositive := h.rules (fun _ _ hr => hr) hpositive
  have horderly : (e.begin batch).Orderly .idle := orderly_of_mutations h hquiet hpos hbase
  have hev : e.evaluator = ev := h.upholds.2.2
  rw [flush_store]
  constructor
  · intro hgain
    obtain ⟨changes, hannounces, hgains⟩ :=
      horderly.last_of_gains hquiet.suspects_eq hgain e.config.maxRounds
    exact ⟨changes, hannounces, hgains, hannounces.effective.nodup_values hgains⟩
  · intro hloss
    have hsheds := horderly.last_sheds hloss e.config.maxRounds
    obtain ⟨changes, hannounces, hlosses⟩ := hsheds.losses
    have hkept : ∀ q, Derivable ev e.graph e.activeRules (IsBase e.graph batch.contents.Has) q →
        .lost q ∉ changes := by
      intro q hq
      rw [← hev] at hq
      exact hannounces.not_lost hlosses (hsheds.has_of_derivable horderly hq)
    exact ⟨changes, hannounces, hlosses, hannounces.effective.nodup_values hlosses, hkept⟩

/-! ## Something that is derived twice -/

/-- What has A or C has B, and what has B has D. There is another subscription, x has A and C, and y has
A only. -/
def derivedTwice : Session :=
  List.foldl Session.carryOut
    ⟨(RuleEngine.new .default .standard ⟨Contents.empty.replay [], ChangeFeed.empty.subscribe.2⟩).1,
      (RuleEngine.new .default .standard ⟨Contents.empty.replay [], ChangeFeed.empty.subscribe.2⟩).2,
      []⟩
    [.request (.add (entail "direct" ["A"] "B")), .request (.add (entail "other" ["C"] "B")),
      .request (.add (entail "further" ["B"] "D")),
      .mutate (.apply ⟨[stating "x" "A", stating "x" "C", stating "y" "A"], []⟩), .request .flush]

private theorem history_derivedTwice :
    History .default .standard derivedTwice.engine derivedTwice.store derivedTwice.turns :=
  Session.history (.start fun _ hq => absurd hq Contents.not_contains_empty) (by decide)

private theorem isQuiet_derivedTwice : derivedTwice.engine.IsQuiet derivedTwice.store := by
  obtain ⟨hqueue, hsuspects, hwithdrawn, hdeferred⟩ :
      derivedTwice.engine.queue derivedTwice.store = [] ∧ derivedTwice.engine.suspects = ∅ ∧
      derivedTwice.engine.withdrawn = ∅ ∧ derivedTwice.engine.deferred = ∅ := by
    decide +kernel
  exact ⟨hqueue, hsuspects, hwithdrawn, hdeferred⟩

/-- Both lose A. That x has B is withdrawn with what follows from it, and both are reinstated. -/
theorem flush_without_flicker_of_derivedTwice :
    let e := derivedTwice.engine
    let batch := (Mutation.apply ⟨[], [stating "x" "A", stating "y" "A"]⟩).carryOut
      derivedTwice.store
    (e.flush batch).answer.toOption.map FlushReport.rederived = some 2 ∧
      batch.feed.buffers.contains 0 = true ∧ 0 ≠ e.subscription ∧
      ∃ changes, changes ≠ [] ∧
        batch.Announces (· ≠ e.subscription) changes (e.flush batch).store ∧
        (∀ c ∈ changes, c.isGain = false) ∧ (changes.map Change.value).Nodup ∧
        ∀ q, Derivable .standard e.graph e.activeRules (IsBase e.graph batch.contents.Has) q →
          .lost q ∉ changes := by
  intro e batch
  obtain ⟨hadds, hrederived, hopen, hother, hloss, hfewer, hbase⟩ :
      derivedTwice.turns.all Turn.addsPositive = true ∧
      (e.flush batch).answer.toOption.map FlushReport.rederived = some 2 ∧
      batch.feed.buffers.contains 0 = true ∧ 0 ≠ e.subscription ∧
      (∀ c ∈ e.queue batch, c.isGain = false) ∧
      (e.flush batch).store.contents ≠ batch.contents ∧
      ∀ m ∈ [Mutation.apply ⟨[], [stating "x" "A", stating "y" "A"]⟩],
        ∀ q ∈ m.quads, q.graph ≠ e.graph := by
    decide +kernel
  obtain ⟨changes, hannounces, hlosses⟩ := (flush_without_flicker history_derivedTwice
    isQuiet_derivedTwice (Turn.isPositive_of_all hadds) hbase).2 hloss
  refine ⟨hrederived, hopen, hother, changes, ?_, hannounces, hlosses⟩
  rintro rfl
  exact hfewer hannounces.contents_eq

end Entail
