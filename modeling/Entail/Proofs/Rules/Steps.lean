import Entail.Proofs.Rules.Course
/-!
# Steps

What the steps of a run leave alone if they succeed, whatever the state they start in; and that a run
is made of nothing but these steps, so that what every step keeps, a whole run keeps.
-/

namespace Entail

namespace RunState

open RuleEngine

variable {s s' s'' : RunState} {q : Quad} {c : Change Quad} {phase : Phase} {round : Round}
  {progress : Progress} {step : Option (Round × Progress)} {m n rounds : Nat}

/-! ## Telling the networks -/

theorem sameBut_of_injectInto {e e' : RuleEngine} {id : String}
    {failures : List ConclusionFailure} (h : injectInto c e id = .ok (failures, e')) :
    e.SameBut e' := by
  unfold injectInto at h
  split at h
  · obtain ⟨_, rfl⟩ := Prod.mk.inj (Except.ok.inj h)
    exact .refl e
  · split at h
    · obtain ⟨_, rfl⟩ := Prod.mk.inj (Except.ok.inj h)
      exact .refl e
    · obtain ⟨⟨p, n⟩, _, h⟩ := Result.bind_eq_ok_iff.1 h
      obtain ⟨⟨_, slot, support⟩, _, h⟩ := Result.bind_eq_ok_iff.1 h
      obtain ⟨_, rfl⟩ := Prod.mk.inj (Except.ok.inj h)
      exact ⟨rfl, rfl, rfl, rfl, rfl, rfl, rfl⟩

private theorem sameBut_of_runStage {e e' : RuleEngine} {ids : List String}
    {failures : List ConclusionFailure} (h : runStage (injectInto c) e ids = .ok (failures, e')) :
    e.SameBut e' := by
  induction ids generalizing e failures with
  | nil =>
      obtain ⟨_, rfl⟩ := Prod.mk.inj (Except.ok.inj h)
      exact .refl e
  | cons id rest ih =>
      rw [runStage, Result.bind_eq_ok_iff] at h
      obtain ⟨⟨first, e₁⟩, hfirst, h⟩ := h
      obtain ⟨⟨others, e₂⟩, hrest, h⟩ := Result.bind_eq_ok_iff.1 h
      obtain ⟨_, rfl⟩ := Prod.mk.inj (Except.ok.inj h)
      have hsame := sameBut_of_injectInto hfirst
      exact hsame.trans (ih hrest)

theorem inject_eq_ok (h : s.inject c = .ok s') : ∃ failures e,
    runStage (injectInto c) s.engine s.engine.slots.keys = .ok (failures, e) ∧
      s.engine.SameBut e ∧
      s' = ⟨e, s.store, { s.report with failures := s.report.failures ++ failures }⟩ := by
  obtain ⟨⟨failures, e⟩, hattempt, h⟩ := Result.bind_eq_ok_iff.1 h
  have hrun : runStage (injectInto c) s.engine s.engine.slots.keys = .ok (failures, e) := by
    unfold attempt at hattempt
    cases hstage : runStage (injectInto c) s.engine s.engine.slots.keys with
    | error f =>
        rw [hstage] at hattempt
        cases hattempt
    | ok result =>
        rw [hstage] at hattempt
        exact congrArg Except.ok (Except.ok.inj hattempt)
  exact ⟨failures, e, hrun, sameBut_of_runStage hrun, (Except.ok.inj h).symm⟩

/-! ## Settling -/

/-- What settling changes: suspects, quads held back, the store, and how much was stored and
removed. -/
structure Touches (phase : Phase) (s s' : RunState) : Prop where
  engine_eq : ∃ suspects deferred, s'.engine = { s.engine with suspects, deferred } ∧
    (phase = .outside → deferred = s.engine.deferred)
  store_eq : phase = .withdrawing → s'.store = s.store
  failures_eq : s'.report.failures = s.report.failures

theorem Touches.refl (phase : Phase) (s : RunState) : s.Touches phase s :=
  ⟨⟨_, _, rfl, fun _ => rfl⟩, fun _ => rfl, rfl⟩

theorem Touches.trans (h : s.Touches phase s') (h' : s'.Touches phase s'') :
    s.Touches phase s'' where
  engine_eq := by
    obtain ⟨_, _, heq, hdeferred⟩ := h.engine_eq
    obtain ⟨_, _, heq', hdeferred'⟩ := h'.engine_eq
    rw [heq] at heq' hdeferred'
    refine ⟨_, _, heq', fun hp => ?_⟩
    rw [hdeferred' hp]
    exact hdeferred hp
  store_eq hp := by
    rw [h'.store_eq hp]
    exact h.store_eq hp
  failures_eq := by
    rw [h'.failures_eq]
    exact h.failures_eq

private theorem release_eq_ok (h : s.release q = .ok s') :
    s'.engine = s.engine ∧ s'.report.failures = s.report.failures := by
  rcases release_cases h with ⟨rfl, _⟩ | ⟨_, _, rfl⟩
  · exact ⟨rfl, rfl⟩
  · exact ⟨rfl, rfl⟩

private theorem Acts.touches {raised lowered : List Quad} (h : Acts phase raised lowered s s') :
    s.Touches phase s' := by
  induction h with
  | refl => exact .refl phase s
  | suspect _ _ _ ih =>
      refine ih.trans ⟨?_, fun _ => rfl, rfl⟩
      exact ⟨_, _, rfl, fun _ => rfl⟩
  | holdBack _ _ hphase ih =>
      refine ih.trans ⟨?_, fun _ => rfl, rfl⟩
      exact ⟨_, _, rfl, fun heq => absurd heq hphase⟩
  | release _ _ hphase hrelease ih =>
      obtain ⟨hengine, hfailures⟩ := release_eq_ok hrelease
      refine ih.trans ⟨?_, fun heq => ?_, hfailures⟩
      · exact ⟨_, _, hengine, fun _ => rfl⟩
      · rw [hphase] at heq
        cases heq
  | retract _ _ hphase _ ih =>
      refine ih.trans ⟨?_, fun heq => absurd heq hphase, rfl⟩
      exact ⟨_, _, rfl, fun _ => rfl⟩

theorem settle_touches (h : s.settle phase = .ok s') : s.taken.Touches phase s' :=
  (settle_acts h).touches

/-! ## A round -/

/-- What a round leaves alone once it has started. -/
structure Spares (round : Round) (s s' : RunState) : Prop where
  config_eq : s'.engine.config = s.engine.config
  evaluator_eq : s'.engine.evaluator = s.engine.evaluator
  subscription_eq : s'.engine.subscription = s.engine.subscription
  pending_eq : s'.engine.pending = (s.start round).engine.pending
  withdrawn_eq : s'.engine.withdrawn = (s.start round).engine.withdrawn
  deferred_eq : round.phase = .outside → s'.engine.deferred = s.engine.deferred
  store_eq : round.phase = .withdrawing → s'.store = s.store

theorem perform_spares (h : s.perform round = .ok s') : s.Spares round s' := by
  obtain ⟨s₁, hinject, hsettle⟩ := Result.bind_eq_ok_iff.1 h
  obtain ⟨failures, e, _, hsame, rfl⟩ := inject_eq_ok hinject
  have htouches := settle_touches hsettle
  obtain ⟨suspects, deferred, hengine, hdeferred⟩ := htouches.engine_eq
  refine ⟨?_, ?_, ?_, ?_, ?_, fun hp => ?_, fun hp => ?_⟩
  · rw [hengine, ← config_start s round]
    exact hsame.config_eq
  · rw [hengine, ← evaluator_start s round]
    exact hsame.evaluator_eq
  · rw [hengine, ← subscription_start s round]
    exact hsame.subscription_eq
  · rw [hengine]
    exact hsame.pending_eq
  · rw [hengine]
    exact hsame.withdrawn_eq
  · rw [hengine, ← deferred_start s round, ← hsame.deferred_eq]
    exact hdeferred hp
  · rw [htouches.store_eq hp]
    exact store_start s round

/-- The networks have been told of the change of the round, and of nothing else. -/
theorem perform_tracks {seen : String → (Quad → Prop) → Prop} (ht : s.engine.Tracks seen)
    (h : s.perform round = .ok s') :
    s'.engine.Tracks (fun id => stepped round.change (seen id)) ∧
      ∀ id, s'.engine.rule? id = s.engine.rule? id := by
  obtain ⟨s₁, hinject, hsettle⟩ := Result.bind_eq_ok_iff.1 h
  obtain ⟨failures, e, hrun, _, rfl⟩ := inject_eq_ok hinject
  obtain ⟨suspects, deferred, hengine, _⟩ := (settle_touches hsettle).engine_eq
  obtain ⟨hrule, htracks, _⟩ := (tracks_start s round ht).of_inject hrun
  rw [hengine]
  refine ⟨⟨htracks.named, htracks.slots, htracks.accounts.settled⟩, fun id => ?_⟩
  rw [← rule?_start s round id]
  exact hrule id

/-! ## The end of a pass -/

/-- What was withdrawn and held back is forgotten. -/
structure Cleared (s s' : RunState) : Prop where
  engine_eq : s'.engine = { s.engine with withdrawn := ∅, deferred := ∅ }
  failures_eq : s'.report.failures = s.report.failures

theorem Cleared.isRederiving_eq (h : s.Cleared s') : s'.engine.isRederiving = false := by
  rw [h.engine_eq]
  rfl

theorem finalize_cleared (h : s.finalize = .ok s') : s.Cleared s' := by
  refine finalize_inv (P := s.Cleared) (fun _ _ hs => ⟨hs.engine_eq, hs.failures_eq⟩)
    (fun s₁ s₂ q hs hrun => ?_) ⟨rfl, rfl⟩ h
  obtain ⟨hengine, hfailures⟩ := release_eq_ok hrun
  refine ⟨?_, ?_⟩
  · rw [hengine]
    exact hs.engine_eq
  · rw [hfailures]
    exact hs.failures_eq

/-! ## All steps -/

/-- Steps of a run lead from one state to another, in any order, with `n` rounds among them. -/
inductive Reaches (s : RunState) : Nat → RunState → Prop where
  | refl : Reaches s 0 s
  | drain {n : Nat} {s' : RunState} : Reaches s n s' → Reaches s n s'.takeChanges
  | look {n : Nat} {s' : RunState} : Reaches s n s' → Reaches s n s'.nextSuspect.2
  | finish {n : Nat} {s' s'' : RunState} :
    Reaches s n s' → s'.finalize = .ok s'' → Reaches s n s''
  | perform {n : Nat} {s' s'' : RunState} (round : Round) :
    Reaches s n s' → s'.perform round = .ok s'' → Reaches s (n + 1) s''

theorem Reaches.trans (h : s.Reaches m s') (h' : s'.Reaches n s'') : s.Reaches (m + n) s'' := by
  induction h' with
  | refl => exact h
  | drain _ ih => exact ih.drain
  | look _ ih => exact ih.look
  | finish _ hfinalize ih => exact ih.finish hfinalize
  | perform round _ hperform ih => exact ih.perform round hperform

private theorem nextOutside_reaches (h : s.nextOutside = (s', step)) : s.Reaches 0 s' :=
  nextOutside_inv (fun _ => .drain) (fun _ => .look) .refl h

theorem nextInPass_reaches (h : s.nextInPass progress = (s', step)) : s.Reaches 0 s' :=
  nextInPass_inv (fun _ => .look) .refl h

theorem next_reaches (h : s.next progress = .ok (s', step)) : s.Reaches 0 s' := by
  cases next_eq_ok_iff.1 h with
  | outside _ hnext => exact nextOutside_reaches hnext
  | inPass _ hnext => exact nextInPass_reaches hnext
  | finish _ hnext hfinalize hlast =>
      have hpass := (nextInPass_reaches hnext).finish hfinalize
      exact hpass.trans (nextOutside_reaches hlast)

theorem run_reaches (h : s.run progress rounds = .ok s') :
    ∃ n ≤ rounds, ∃ s₁ progress', s.Reaches n s₁ ∧ s₁.next progress' = .ok (s', none) := by
  induction rounds generalizing s progress with
  | zero =>
      rw [run] at h
      obtain ⟨⟨s₁, step⟩, hnext, h⟩ := Result.bind_eq_ok_iff.1 h
      cases step with
      | none =>
          obtain rfl := Except.ok.inj h
          exact ⟨0, Nat.le_refl 0, s, progress, .refl, hnext⟩
      | some step => cases h
  | succ rounds ih =>
      rw [run] at h
      obtain ⟨⟨s₁, step⟩, hnext, h⟩ := Result.bind_eq_ok_iff.1 h
      cases step with
      | none =>
          obtain rfl := Except.ok.inj h
          exact ⟨0, Nat.zero_le _, s, progress, .refl, hnext⟩
      | some step =>
          obtain ⟨s₂, hperform, h⟩ := Result.bind_eq_ok_iff.1 h
          obtain ⟨n, hn, s₃, progress', hreaches, hlast⟩ := ih h
          have hround := (next_reaches hnext).perform step.1 hperform
          refine ⟨n + 1, Nat.succ_le_succ hn, s₃, progress', ?_, hlast⟩
          rw [Nat.add_comm]
          exact hround.trans hreaches

/-! ## What a run keeps -/

variable {P Q : RunState → Prop}

/-- `P` holds where a run ends. If the run ended early, it was out of rounds. -/
def EndsIn (P : RunState → Prop) : Except Stopped RunState → Prop
  | .ok s => P s
  | .error stopped => P stopped.state ∧ ∃ activity, stopped.cause =
      .error (.roundsExceeded stopped.state.engine.config.maxRounds (some activity))

theorem EndsIn.mono {result : Except Stopped RunState} (h : EndsIn P result)
    (hPQ : ∀ s, P s → Q s) : EndsIn Q result := by
  cases result with
  | ok s => exact hPQ s h
  | error stopped => exact ⟨hPQ stopped.state h.1, h.2⟩

/-- A run chooses rounds and performs them by turns: if from what holds before a choice a round can be
chosen, and the round chosen can be performed, it ends after a choice. -/
theorem run_induction (before : RunState → Progress → Prop)
    (chosen : RunState → Option (Round × Progress) → Prop)
    (hnext : ∀ {s : RunState} {progress : Progress}, before s progress →
      ∃ s' step, s.next progress = .ok (s', step) ∧ chosen s' step)
    (hperform : ∀ {s : RunState} {round : Round} {progress : Progress},
      chosen s (some (round, progress)) → ∃ s', s.perform round = .ok s' ∧ before s' progress)
    (hs : before s progress) (rounds : Nat) :
    EndsIn (fun s => ∃ step, chosen s step) (s.run progress rounds) := by
  induction rounds generalizing s progress with
  | zero =>
      obtain ⟨s₁, step, hchoice, hchosen⟩ := hnext hs
      rw [run, hchoice, Result.ok_bind]
      cases step with
      | none => exact ⟨none, hchosen⟩
      | some step => exact ⟨⟨some step, hchosen⟩, step.1.activity, rfl⟩
  | succ rounds ih =>
      obtain ⟨s₁, step, hchoice, hchosen⟩ := hnext hs
      rw [run, hchoice, Result.ok_bind]
      cases step with
      | none => exact ⟨none, hchosen⟩
      | some step =>
          obtain ⟨round, progress'⟩ := step
          obtain ⟨s₂, hround, hbefore⟩ := hperform hchosen
          simp only [hround, Result.ok_bind]
          exact ih hbefore

/-- Every step of a run that can come next succeeds and keeps `P`. -/
structure IsKept (P : RunState → Prop) : Prop where
  drain : ∀ {s : RunState}, P s → P s.takeChanges
  look : ∀ {s : RunState}, P s → P s.nextSuspect.2
  perform : ∀ {s : RunState} {round : Round} {progress : Progress},
    P s → s.Ready round progress → ∃ s', s.perform round = .ok s' ∧ P s'
  finish : ∀ {s : RunState}, P s → (∀ q ∈ s.engine.withdrawn, s.engine.support.total q = 0) →
    ∃ s', s.finalize = .ok s' ∧ P s'

namespace IsKept

theorem and (h : IsKept P) (hdrain : ∀ {s : RunState}, Q s → Q s.takeChanges)
    (hlook : ∀ {s : RunState}, Q s → Q s.nextSuspect.2)
    (hperform : ∀ {s s' : RunState} {round : Round} {progress : Progress},
      Q s → s.Ready round progress → s.perform round = .ok s' → Q s')
    (hfinish : ∀ {s s' : RunState}, Q s →
      (∀ q ∈ s.engine.withdrawn, s.engine.support.total q = 0) → s.finalize = .ok s' → Q s') :
    IsKept fun s => P s ∧ Q s where
  drain hs := ⟨h.drain hs.1, hdrain hs.2⟩
  look hs := ⟨h.look hs.1, hlook hs.2⟩
  perform hs hready := by
    obtain ⟨s', hrun, hP⟩ := h.perform hs.1 hready
    exact ⟨s', hrun, hP, hperform hs.2 hready hrun⟩
  finish hs hzero := by
    obtain ⟨s', hrun, hP⟩ := h.finish hs.1 hzero
    exact ⟨s', hrun, hP, hfinish hs.2 hzero hrun⟩

theorem nextOutside (h : IsKept P) (hs : P s) (hnext : s.nextOutside = (s', step)) : P s' :=
  nextOutside_inv (fun _ => h.drain) (fun _ => h.look) hs hnext

theorem nextInPass (h : IsKept P) (hs : P s) (hnext : s.nextInPass progress = (s', step)) : P s' :=
  nextInPass_inv (fun _ => h.look) hs hnext

theorem next (h : IsKept P) (hs : P s) (hdue : s.IsDue progress) :
    ∃ s' step, s.next progress = .ok (s', step) ∧ P s' ∧
      ∀ round progress', step = some (round, progress') → s'.Ready round progress' := by
  have hend : ∀ {s₁ : RunState}, s.nextInPass progress = (s₁, none) →
      ∃ last, s₁.finalize = .ok last ∧ P last := fun hnext =>
    h.finish (h.nextInPass hs hnext) (nextInPass_eq_none hnext)
  have hcan : ∀ s₁, s.nextInPass progress = (s₁, none) → ∃ last, s₁.finalize = .ok last := by
    intro s₁ hnext
    obtain ⟨last, hlast, _⟩ := hend hnext
    exact ⟨last, hlast⟩
  obtain ⟨s', step, hchooses⟩ := exists_chooses s progress hcan
  refine ⟨s', step, next_eq_ok_iff.2 hchooses, ?_⟩
  cases hchooses with
  | outside hidle hnext =>
      refine ⟨h.nextOutside hs hnext, ?_⟩
      rintro round progress' rfl
      exact ready_of_nextOutside hidle.2 hnext
  | inPass _ hnext =>
      refine ⟨h.nextInPass hs hnext, ?_⟩
      rintro _ _ ⟨⟩
      exact ready_of_nextInPass hdue hnext
  | finish _ hnext hfinalize hlast =>
      have hP := Result.of_exists_ok (hend hnext) hfinalize
      refine ⟨h.nextOutside hP hlast, ?_⟩
      rintro round progress' rfl
      exact ready_of_nextOutside (finalize_cleared hfinalize).isRederiving_eq hlast

/-- What follows from what is kept. `before` holds before a choice and `chosen` after it, if each of them
leads to the other. -/
theorem run_induction (h : IsKept P) (before : RunState → Progress → Prop)
    (chosen : RunState → Option (Round × Progress) → Prop)
    (hnext : ∀ {s s' : RunState} {progress : Progress} {step : Option (Round × Progress)},
      P s → before s progress → s.next progress = .ok (s', step) → chosen s' step)
    (hperform : ∀ {s s' : RunState} {round : Round} {progress : Progress},
      P s → chosen s (some (round, progress)) → s.Ready round progress →
      s.perform round = .ok s' → before s' progress)
    (hs : P s) (hdue : s.IsDue progress) (hbefore : before s progress) (rounds : Nat) :
    EndsIn (fun s => P s ∧ ∃ step, chosen s step) (s.run progress rounds) := by
  refine (RunState.run_induction (fun s progress => P s ∧ s.IsDue progress ∧ before s progress)
    (fun s step => P s ∧ (∀ round progress, step = some (round, progress) →
      s.Ready round progress) ∧ chosen s step) ?_ ?_ ⟨hs, hdue, hbefore⟩ rounds).mono ?_
  · rintro s progress ⟨hs, hdue, hbefore⟩
    obtain ⟨s', step, hchoice, hs', hready⟩ := h.next hs hdue
    exact ⟨s', step, hchoice, hs', hready, hnext hs hbefore hchoice⟩
  · rintro s round progress ⟨hs, hready, hchosen⟩
    have hready := hready round progress rfl
    obtain ⟨s', hrun, hs'⟩ := h.perform hs hready
    have hdue : s'.IsDue progress := hready.isDue (perform_spares hrun).withdrawn_eq
    exact ⟨s', hrun, hs', hdue, hperform hs hchosen hready hrun⟩
  · rintro s ⟨step, hs, _, hchosen⟩
    exact ⟨hs, step, hchosen⟩

theorem run (h : IsKept P) (hs : P s) (hdue : s.IsDue progress) (rounds : Nat) :
    EndsIn P (s.run progress rounds) :=
  (h.run_induction (fun _ _ => True) (fun _ _ => True) (fun _ _ _ => trivial)
    (fun _ _ _ _ => trivial) hs hdue trivial rounds).mono fun _ hlast => hlast.1

theorem runToQuiet (h : IsKept P) (hs : P s) : EndsIn P s.runToQuiet :=
  h.run hs s.isDue_idle s.engine.config.maxRounds

end IsKept

end RunState

end Entail
