import Entail.Proofs.Rules.Confinement
import Entail.Proofs.Rules.Interrupted
import Entail.Proofs.Rules.Steps
/-!
# Reports

What a report says was stored and removed is what was published, one change for one, wherever in a run
the store is written to. A run that is answered leaves nothing to do.
-/

namespace Entail

namespace RunState

open RuleEngine

variable {s s' s'' : RunState} {q : Quad} {phase : Phase} {round : Round} {progress : Progress}
  {step : Option (Round × Progress)} {m n rounds : Nat}

/-- From `s` to `s'`, in `n` rounds, the report was added to for every change that was published. -/
structure Tallies (n : Nat) (s s' : RunState) : Prop where
  config_eq : s'.engine.config = s.engine.config
  subscription_eq : s'.engine.subscription = s.engine.subscription
  rounds_eq : s'.report.rounds = s.report.rounds + n
  counts : ∃ changes, s.store.Announces (· ≠ s.engine.subscription) changes s'.store ∧
    s'.report.materialized = s.report.materialized + changes.countP Change.isGain ∧
    s'.report.retracted = s.report.retracted + changes.countP fun c => !c.isGain

namespace Tallies

theorem of_unchanged {e : RuleEngine} {report : FlushReport}
    (hconfig : e.config = s.engine.config) (hsubscription : e.subscription = s.engine.subscription)
    (hrounds : report.rounds = s.report.rounds + n)
    (hmaterialized : report.materialized = s.report.materialized)
    (hretracted : report.retracted = s.report.retracted) : Tallies n s ⟨e, s.store, report⟩ :=
  ⟨hconfig, hsubscription, hrounds, [], .refl _ _, hmaterialized, hretracted⟩

theorem refl (s : RunState) : Tallies 0 s s :=
  .of_unchanged rfl rfl rfl rfl rfl

theorem relabel (s : RunState) {e : RuleEngine} (hconfig : e.config = s.engine.config)
    (hsubscription : e.subscription = s.engine.subscription) :
    Tallies 0 s { s with engine := e } :=
  .of_unchanged hconfig hsubscription rfl rfl rfl

theorem trans (h : Tallies m s s') (h' : Tallies n s' s'') : Tallies (m + n) s s'' where
  config_eq := by rw [h'.config_eq, h.config_eq]
  subscription_eq := by rw [h'.subscription_eq, h.subscription_eq]
  rounds_eq := by rw [h'.rounds_eq, h.rounds_eq, Nat.add_assoc]
  counts := by
    obtain ⟨changes, hannounces, hmaterialized, hretracted⟩ := h.counts
    obtain ⟨more, hmore, hmaterialized', hretracted'⟩ := h'.counts
    rw [h.subscription_eq] at hmore
    refine ⟨changes ++ more, hannounces.trans hmore, ?_, ?_⟩
    · rw [hmaterialized', hmaterialized, List.countP_append, Nat.add_assoc]
    · rw [hretracted', hretracted, List.countP_append, Nat.add_assoc]

private theorem of_take {c : Change Quad} (hfresh : c.IsFresh s.store.contents.Has)
    {report : FlushReport} (hrounds : report.rounds = s.report.rounds)
    (hmaterialized : report.materialized = s.report.materialized + c.isGain.toNat)
    (hretracted : report.retracted = s.report.retracted + (!c.isGain).toNat) :
    Tallies 0 s { s with store := s.store.take c, report } where
  config_eq := rfl
  subscription_eq := rfl
  rounds_eq := hrounds
  counts := by
    refine ⟨[c], .take hfresh, ?_, ?_⟩
    · cases c with
      | gained q => exact hmaterialized
      | lost q => exact hmaterialized
    · cases c with
      | gained q => exact hretracted
      | lost q => exact hretracted

/-! ## Settling -/

theorem of_release (h : s.release q = .ok s') : Tallies 0 s s' := by
  rcases release_cases h with ⟨rfl, _⟩ | ⟨_, hq, rfl⟩
  · exact .refl s'
  · exact .of_take (c := .gained q) hq rfl rfl rfl

theorem of_retract (s : RunState) (q : Quad) : Tallies 0 s (s.retract q) := by
  rcases retract_cases s q with ⟨heq, _⟩ | ⟨hq, heq⟩
  · rw [heq]
    exact .refl s
  · rw [heq]
    exact .of_take (c := .lost q) hq rfl rfl rfl

private theorem of_acts {raised lowered : List Quad} (h : Acts phase raised lowered s s') :
    Tallies 0 s s' := by
  induction h with
  | refl => exact .refl s
  | suspect _ _ _ ih => exact ih.trans (n := 0) (.relabel _ rfl rfl)
  | holdBack _ _ _ ih => exact ih.trans (n := 0) (.relabel _ rfl rfl)
  | release _ _ _ hrelease ih => exact ih.trans (.of_release hrelease)
  | retract _ _ _ _ ih => exact ih.trans (.of_retract _ _)

theorem of_settle (h : s.settle phase = .ok s') : Tallies 0 s s' := by
  have htaken : Tallies 0 s s.taken := .relabel s rfl rfl
  exact htaken.trans (of_acts (settle_acts h))

/-! ## Rounds -/

private theorem of_start (s : RunState) (round : Round) : Tallies 1 s (s.start round) := by
  cases round with
  | propagate c => exact .of_unchanged rfl rfl rfl rfl rfl
  | withdraw q => exact .of_unchanged rfl rfl rfl rfl rfl
  | reinstate q => exact .of_unchanged rfl rfl rfl rfl rfl

theorem of_perform (h : s.perform round = .ok s') : Tallies 1 s s' := by
  obtain ⟨s₁, hinject, hsettle⟩ := Result.bind_eq_ok_iff.1 h
  obtain ⟨failures, e, _, hsame, rfl⟩ := inject_eq_ok hinject
  have htold : Tallies 0 (s.start round) ⟨e, (s.start round).store,
      { (s.start round).report with failures := (s.start round).report.failures ++ failures }⟩ :=
    .of_unchanged hsame.config_eq hsame.subscription_eq rfl rfl rfl
  have hdone := htold.trans (of_settle hsettle)
  exact (of_start s round).trans hdone

/-! ## All steps -/

private theorem of_takeChanges (s : RunState) : Tallies 0 s s.takeChanges := by
  unfold takeChanges
  split
  · exact ⟨rfl, rfl, rfl, [], .drain _ _, rfl, rfl⟩
  · exact .refl s

private theorem of_finalize (h : s.finalize = .ok s') : Tallies 0 s s' :=
  finalize_inv (P := Tallies 0 s) (fun s' q hs => hs.trans (of_retract s' q))
    (fun _ _ _ hs hrun => hs.trans (of_release hrun)) (.relabel s rfl rfl) h

theorem of_reaches (h : s.Reaches n s') : Tallies n s s' := by
  induction h with
  | refl => exact .refl s
  | drain _ ih => exact ih.trans (of_takeChanges _)
  | @look _ s' _ ih =>
      have hlook : Tallies 0 s' s'.nextSuspect.2 := .relabel s' rfl rfl
      exact ih.trans hlook
  | finish _ hfinalize ih => exact ih.trans (of_finalize hfinalize)
  | perform _ _ hperform ih => exact ih.trans (of_perform hperform)

end Tallies

/-! ## A run -/

theorem isQuiet_of_next (h : s.next progress = .ok (s', none)) : s'.engine.IsQuiet s'.store := by
  cases next_eq_ok_iff.1 h with
  | outside hidle hnext => exact isQuiet_of_nextOutside hnext hidle.2
  | finish _ _ hfinalize hlast =>
      exact isQuiet_of_nextOutside hlast (finalize_cleared hfinalize).isRederiving_eq

/-- A run that is answered took no more rounds than it was given, counted all it published, and left
nothing to do. -/
theorem run_tallies (h : s.run progress rounds = .ok s') :
    ∃ n ≤ rounds, Tallies n s s' ∧ s'.engine.IsQuiet s'.store := by
  obtain ⟨n, hn, s₁, progress', hreaches, hlast⟩ := run_reaches h
  have hrounds : Tallies n s s₁ := .of_reaches hreaches
  have hchoice : Tallies 0 s₁ s' := .of_reaches (next_reaches hlast)
  exact ⟨n, hn, hrounds.trans hchoice, isQuiet_of_next hlast⟩

theorem next_of_isQuiet (h : s.engine.IsQuiet s.store) :
    ∃ s', s.next .idle = .ok (s', none) ∧ s'.report = s.report ∧
      s'.store.contents = s.store.contents := by
  obtain ⟨hqueue, hsuspects, hwithdrawn, hdeferred⟩ := h
  obtain ⟨hpending, hwaiting⟩ := List.append_eq_nil_iff.1 hqueue
  have htaken : s.takeChanges =
      ⟨{ s.engine with pending := (s.store.drain s.engine.subscription).1 },
        (s.store.drain s.engine.subscription).2, s.report⟩ := by
    rw [takeChanges, if_pos (List.isEmpty_iff.2 hpending)]
  have hidle := isRederiving_eq_false_iff.2 ⟨hwithdrawn, hdeferred⟩
  have hnone : s.takeChanges.nextSuspect.1 = none := by
    rw [htaken, nextSuspect, hsuspects]
    rfl
  have hpending' : s.takeChanges.engine.pending = [] := by
    rw [htaken]
    exact hwaiting
  have hnext : s.nextOutside = (s.takeChanges.nextSuspect.2, none) :=
    nextOutside_eq_iff.2 (.stop hpending' hnone)
  refine ⟨s.takeChanges.nextSuspect.2, next_eq_ok_iff.2 (.outside ⟨rfl, hidle⟩ hnext), ?_, ?_⟩
  · rw [htaken]
    rfl
  · rw [htaken]
    rfl

end RunState

/-! ## Requests -/

open RuleEngine

private theorem outcome_tallies {e : RuleEngine} {σ : Store} {request : Request}
    {report : FlushReport} (h : (e.begin σ).Balanced)
    (hanswer : (request.carryOut e σ).answer = .ok report) :
    ∃ n ≤ e.config.maxRounds, RunState.Tallies n (e.begin σ)
        ⟨(request.carryOut e σ).engine, (request.carryOut e σ).store, report⟩ ∧
      (request.carryOut e σ).engine.IsQuiet (request.carryOut e σ).store := by
  rcases request.carryOut_begins h with ⟨error, _, hrefused⟩ | ⟨_, s₀, houtcome, hbegins⟩
  · rw [hrefused] at hanswer
    cases hanswer
  · have hopened : RunState.Tallies 0 (e.begin σ) s₀ := by
      rcases hbegins.prepared h with ⟨slots, _, rfl⟩ | ⟨slots, support, failures, _, _, _, _, hsettle⟩
      · exact .relabel _ rfl rfl
      · have hprepared : RunState.Tallies 0 (e.begin σ)
            ⟨{ e with slots, support }, σ, { FlushReport.empty with failures }⟩ :=
          .of_unchanged rfl rfl rfl rfl rfl
        exact hprepared.trans (.of_settle hsettle)
    cases hrun : s₀.runToQuiet with
    | error stopped =>
        rw [houtcome, hrun] at hanswer
        cases hanswer
    | ok s =>
        rw [houtcome, hrun] at hanswer ⊢
        obtain rfl := Except.ok.inj hanswer
        obtain ⟨n, hn, htallies, hquiet⟩ := RunState.run_tallies hrun
        rw [hopened.config_eq] at hn
        have hall := hopened.trans htallies
        rw [Nat.zero_add] at hall
        exact ⟨n, hn, hall, hquiet⟩

namespace Session

/-- Whatever the rules and the requests, and whatever others write, at any moment: if a request is
answered with a report,

* every other subscription is told of as many gains as the report has quads stored, of as many losses
  as it has quads removed, and of nothing else;
* the size of the store changes accordingly, and if the report has neither, the contents do not change;
* the rounds are within the limit;
* and a flush right after it has nothing to report and leaves the contents alone. -/
theorem report_accounts (config : Config) (ev : Evaluator) (stored : List (Change Quad))
    (feed : ChangeFeed) (events : List Event) (request : Request) {report : FlushReport} :
    let opened := RuleEngine.new config ev ⟨Contents.empty.replay stored, feed⟩
    let s := events.foldl carryOut ⟨opened.1, opened.2, []⟩
    let o := request.carryOut s.engine s.store
    o.answer = .ok report →
    (∃ changes, s.store.Announces (· ≠ s.engine.subscription) changes o.store ∧
        changes.countP Change.isGain = report.materialized ∧
        changes.countP (fun c => !c.isGain) = report.retracted) ∧
      o.store.size + report.retracted = s.store.size + report.materialized ∧
      (report.materialized = 0 → report.retracted = 0 → o.store.contents = s.store.contents) ∧
      report.rounds ≤ config.maxRounds ∧
      (o.engine.flush o.store).answer = .ok .empty ∧
      (o.engine.flush o.store).store.contents = o.store.contents := by
  intro opened s o hanswer
  have hs : s.IsConfined config := (isConfined_new config ev stored feed).run events
  obtain ⟨n, hn, htallies, hquiet⟩ := outcome_tallies hs.balanced hanswer
  obtain ⟨changes, hannounces, hmaterialized, hretracted⟩ := htallies.counts
  have hgains : report.materialized = changes.countP Change.isGain := by
    rw [← Nat.zero_add (changes.countP Change.isGain)]
    exact hmaterialized
  have hlosses : report.retracted = changes.countP fun c => !c.isGain := by
    rw [← Nat.zero_add (changes.countP fun c => !c.isGain)]
    exact hretracted
  have hcontents : o.store.contents = s.store.contents.replay changes := hannounces.contents_eq
  refine ⟨⟨changes, hannounces, hgains.symm, hlosses.symm⟩, ?_, fun hm hr => ?_, ?_, ?_⟩
  · rw [hgains, hlosses, Store.size, Store.size, hcontents]
    exact hannounces.effective.size_replay
  · -- a change is a gain or a loss, and there is none of either
    have hnone : changes = [] := by
      refine List.eq_nil_iff_forall_not_mem.2 fun c hc => ?_
      rw [hgains, List.countP_eq_zero] at hm
      rw [hlosses, List.countP_eq_zero] at hr
      have hloss := hr c hc
      rw [Bool.eq_false_iff.2 (hm c hc)] at hloss
      exact hloss rfl
    rw [hcontents, hnone]
    rfl
  · have hrounds : report.rounds = 0 + n := htallies.rounds_eq
    rw [hrounds, Nat.zero_add, ← hs.config_eq]
    exact hn
  · obtain ⟨s', hnext, hreport, hsame⟩ := RunState.next_of_isQuiet (s := o.engine.begin o.store) hquiet
    have hrun : (o.engine.begin o.store).runToQuiet = .ok s' := by
      rw [RunState.runToQuiet, RunState.run, hnext]
      rfl
    rw [RuleEngine.flush, hrun]
    exact ⟨congrArg Except.ok hreport, hsame⟩

/-- What has A has B. That x has B is taken back when x loses A, and that y has B is stored when y gains
it; somebody else listens. -/
theorem report_accounts_of_direct :
    let opened := RuleEngine.new .default .standard
      ⟨Contents.empty.replay [.gained (stating "x" "A")], ChangeFeed.empty.subscribe.2⟩
    let s := List.foldl carryOut ⟨opened.1, opened.2, []⟩
      [.request (.add (entail "direct" ["A"] "B")),
        .mutate (.apply ⟨[stating "y" "A"], [stating "x" "A"]⟩)]
    let o := Request.flush.carryOut s.engine s.store
    o.answer = .ok ⟨4, 1, 1, 0, []⟩ ∧ s.store.feed.buffers.contains 0 = true ∧
      0 ≠ s.engine.subscription ∧
      (∃ changes, s.store.Announces (· ≠ s.engine.subscription) changes o.store ∧
        changes.countP Change.isGain = 1 ∧ changes.countP (fun c => !c.isGain) = 1) ∧
      o.store.size + 1 = s.store.size + 1 ∧
      (o.engine.flush o.store).answer = .ok .empty ∧
      (o.engine.flush o.store).store.contents = o.store.contents := by
  intro opened s o
  obtain ⟨hanswer, hopen, hother⟩ : o.answer = .ok ⟨4, 1, 1, 0, []⟩ ∧
      s.store.feed.buffers.contains 0 = true ∧ 0 ≠ s.engine.subscription := by
    decide +kernel
  obtain ⟨hchanges, hsize, _, _, hnext, hsame⟩ := report_accounts .default .standard
    [.gained (stating "x" "A")] ChangeFeed.empty.subscribe.2
    [.request (.add (entail "direct" ["A"] "B")),
      .mutate (.apply ⟨[stating "y" "A"], [stating "x" "A"]⟩)] .flush hanswer
  exact ⟨hanswer, hopen, hother, hchanges, hsize, hnext, hsame⟩

end Session

end Entail
