import Entail.Proofs.Rules.Requests
/-!
# Limits

The number of rounds that a run may take, and what was reported before, have no influence on what its
rounds do.
-/

namespace Entail

/-- The engine with another limit on rounds. -/
def RuleEngine.limited (e : RuleEngine) (limit : Nat) : RuleEngine :=
  { e with config := { e.config with maxRounds := limit } }

namespace RunState

open RuleEngine

variable {s s' t : RunState} {q : Quad} {phase : Phase} {c : Change Quad} {round : Round}
  {progress : Progress} {step : Option (Round × Progress)}

/-- The states differ in the limit on rounds and the report only. -/
def Alike (s s' : RunState) : Prop :=
  ∃ limit report, s' = ⟨s.engine.limited limit, s.store, report⟩

theorem Alike.queue_eq (h : s.Alike s') :
    s'.engine.queue s'.store = s.engine.queue s.store := by
  obtain ⟨limit, report, rfl⟩ := h
  rfl

/-! ## A round -/

private theorem release_alike (h : s.Alike s') (hrun : s.release q = .ok t) :
    ∃ t', s'.release q = .ok t' ∧ t.Alike t' := by
  obtain ⟨limit, report, rfl⟩ := h
  have htotal : (s.engine.limited limit).support.total q = s.engine.support.total q := rfl
  unfold release materialize at hrun ⊢
  simp only [htotal] at hrun ⊢
  split at hrun
  · rename_i hpos
    rw [if_pos hpos]
    cases hinsert : s.store.insert q with
    | error e =>
        rw [hinsert] at hrun
        cases hrun
    | ok result =>
        rw [hinsert] at hrun
        obtain rfl := Except.ok.inj hrun
        exact ⟨_, rfl, limit, _, rfl⟩
  · rename_i hpos
    rw [if_neg hpos]
    obtain rfl := Except.ok.inj hrun
    exact ⟨_, rfl, limit, report, rfl⟩

private theorem retract_alike (h : s.Alike s') : (s.retract q).Alike (s'.retract q) := by
  obtain ⟨limit, report, rfl⟩ := h
  exact ⟨limit, _, rfl⟩

private theorem settleRaised_alike (h : s.Alike s') (hrun : settleRaised phase s q = .ok t) :
    ∃ t', settleRaised phase s' q = .ok t' ∧ t.Alike t' := by
  cases phase with
  | outside => exact release_alike h hrun
  | withdrawing =>
      obtain ⟨limit, report, rfl⟩ := h
      obtain rfl := Except.ok.inj hrun
      exact ⟨_, rfl, limit, report, rfl⟩
  | reinstating =>
      obtain ⟨limit, report, rfl⟩ := h
      obtain rfl := Except.ok.inj hrun
      exact ⟨_, rfl, limit, report, rfl⟩

private theorem settleLowered_alike (h : s.Alike s') :
    (settleLowered phase s q).Alike (settleLowered phase s' q) := by
  obtain ⟨limit, report, rfl⟩ := h
  have hmem : (q ∈ (s.engine.limited limit).withdrawn) = (q ∈ s.engine.withdrawn) := rfl
  have htotal : (s.engine.limited limit).support.total q = s.engine.support.total q := rfl
  cases phase with
  | withdrawing =>
      simp only [settleLowered, hmem]
      split
      · exact ⟨limit, report, rfl⟩
      · exact ⟨limit, report, rfl⟩
  | outside =>
      simp only [settleLowered, hmem, htotal]
      split
      · split
        · exact ⟨limit, report, rfl⟩
        · exact retract_alike ⟨limit, report, rfl⟩
      · exact ⟨limit, report, rfl⟩
  | reinstating =>
      simp only [settleLowered, hmem, htotal]
      split
      · split
        · exact ⟨limit, report, rfl⟩
        · exact retract_alike ⟨limit, report, rfl⟩
      · exact ⟨limit, report, rfl⟩

private theorem settle_alike (h : s.Alike s') (hrun : s.settle phase = .ok t) :
    ∃ t', s'.settle phase = .ok t' ∧ t.Alike t' := by
  have htaken : s.taken.Alike s'.taken := by
    obtain ⟨limit, report, rfl⟩ := h
    exact ⟨limit, report, rfl⟩
  have hsupport : s'.engine.support = s.engine.support := by
    obtain ⟨limit, report, rfl⟩ := h
    rfl
  unfold settle at hrun ⊢
  simp only [hsupport] at hrun ⊢
  obtain ⟨s₁, hraised, hlowered⟩ := Result.bind_eq_ok_iff.1 hrun
  have hraise : ∀ a a' b c, Alike a a' → settleRaised phase a b = .ok c →
      ∃ c', settleRaised phase a' b = .ok c' ∧ Alike c c' := fun _ _ _ _ => settleRaised_alike
  have hlower : ∀ a a' b, Alike a a' → Alike (settleLowered phase a b) (settleLowered phase a' b) :=
    fun _ _ _ => settleLowered_alike
  obtain ⟨s₁', hraised', halike⟩ := Result.foldlM_related Alike hraise htaken hraised
  obtain rfl := Except.ok.inj hlowered
  refine ⟨s.engine.support.lowered.foldl (settleLowered phase) s₁', ?_,
    Result.foldl_related Alike hlower halike⟩
  rw [taken, hsupport] at hraised'
  rw [hraised', Result.ok_bind]
  rfl

private theorem injectInto_limited {e e' : RuleEngine} {id : String}
    {failures : List ConclusionFailure} (limit : Nat)
    (h : injectInto c e id = .ok (failures, e')) :
    injectInto c (e.limited limit) id = .ok (failures, e'.limited limit) := by
  have hslots : (e.limited limit).slots = e.slots := rfl
  have hgraph : (e.limited limit).graph = e.graph := rfl
  unfold injectInto at h ⊢
  rw [hslots]
  cases hget : e.slots.get? id with
  | none =>
      rw [hget] at h
      obtain ⟨rfl, rfl⟩ := Prod.mk.inj (Except.ok.inj h)
      rfl
  | some slot =>
      rw [hget] at h
      simp only at h ⊢
      cases hnetwork : slot.network with
      | none =>
          rw [hnetwork] at h
          obtain ⟨rfl, rfl⟩ := Prod.mk.inj (Except.ok.inj h)
          rfl
      | some network =>
          rw [hnetwork] at h
          obtain ⟨⟨p, network'⟩, hupdate, h⟩ := Result.bind_eq_ok_iff.1 h
          obtain ⟨⟨failures', slot', support⟩, habsorb, h⟩ := Result.bind_eq_ok_iff.1 h
          obtain ⟨rfl, rfl⟩ := Prod.mk.inj (Except.ok.inj h)
          have hupdate' : network.update (e.limited limit).evaluator c = .ok (p, network') :=
            hupdate
          have habsorb' : ({ slot with network := some network' } : RuleSlot).absorb
              (e.limited limit).evaluator (e.limited limit).graph (e.limited limit).support p =
              .ok (failures', slot', support) := habsorb
          simp only [hupdate', Result.ok_bind, habsorb']
          rfl

private theorem runStage_limited {e e' : RuleEngine} {ids : List String}
    {failures : List ConclusionFailure} (limit : Nat)
    (h : runStage (injectInto c) e ids = .ok (failures, e')) :
    runStage (injectInto c) (e.limited limit) ids = .ok (failures, e'.limited limit) := by
  induction ids generalizing e failures with
  | nil =>
      obtain ⟨rfl, rfl⟩ := Prod.mk.inj (Except.ok.inj h)
      rfl
  | cons id rest ih =>
      rw [runStage] at h ⊢
      obtain ⟨⟨out, e₁⟩, hfirst, h⟩ := Result.bind_eq_ok_iff.1 h
      obtain ⟨⟨more, e₂⟩, hrest, h⟩ := Result.bind_eq_ok_iff.1 h
      obtain ⟨rfl, rfl⟩ := Prod.mk.inj (Except.ok.inj h)
      rw [injectInto_limited limit hfirst, Result.ok_bind]
      simp only [ih hrest, Result.ok_bind]
      rfl

private theorem inject_alike (h : s.Alike s') (hrun : s.inject c = .ok t) :
    ∃ t', s'.inject c = .ok t' ∧ t.Alike t' := by
  obtain ⟨limit, report, rfl⟩ := h
  unfold inject attempt at hrun ⊢
  cases hstage : runStage (injectInto c) s.engine s.engine.slots.keys with
  | error f =>
      rw [hstage] at hrun
      cases hrun
  | ok result =>
      obtain ⟨failures, e⟩ := result
      rw [hstage] at hrun
      obtain rfl := Except.ok.inj hrun
      have hstage' : runStage (injectInto c) (s.engine.limited limit)
          (s.engine.limited limit).slots.keys = .ok (failures, e.limited limit) :=
        runStage_limited limit hstage
      simp only [hstage']
      exact ⟨_, rfl, limit, _, rfl⟩

theorem Alike.perform (h : s.Alike s') (hrun : s.perform round = .ok t) :
    ∃ t', s'.perform round = .ok t' ∧ t.Alike t' := by
  have hstart : (s.start round).Alike (s'.start round) := by
    obtain ⟨limit, report, rfl⟩ := h
    cases round with
    | propagate c => exact ⟨limit, _, rfl⟩
    | withdraw q => exact ⟨limit, _, rfl⟩
    | reinstate q => exact ⟨limit, _, rfl⟩
  obtain ⟨s₁, hinject, hsettle⟩ := Result.bind_eq_ok_iff.1 hrun
  obtain ⟨s₁', hinject', halike⟩ := inject_alike hstart hinject
  obtain ⟨t', hsettle', halike'⟩ := settle_alike halike hsettle
  refine ⟨t', ?_, halike'⟩
  rw [RunState.perform, hinject', Result.ok_bind, hsettle']

/-! ## The choice of a round -/

private theorem nextSuspect_alike (h : s.Alike s') :
    s'.nextSuspect.1 = s.nextSuspect.1 ∧ s.nextSuspect.2.Alike s'.nextSuspect.2 := by
  obtain ⟨limit, report, rfl⟩ := h
  exact ⟨rfl, limit, report, rfl⟩

private theorem takeChanges_alike (h : s.Alike s') : s.takeChanges.Alike s'.takeChanges := by
  obtain ⟨limit, report, rfl⟩ := h
  have hpending : (s.engine.limited limit).pending = s.engine.pending := rfl
  simp only [takeChanges, hpending]
  split
  · exact ⟨limit, report, rfl⟩
  · exact ⟨limit, report, rfl⟩

private theorem nextOutside_alike (h : s.Alike s') (hnext : s.nextOutside = (t, step)) :
    ∃ t', s'.nextOutside = (t', step) ∧ t.Alike t' := by
  have htaken := takeChanges_alike h
  have hpending : s'.takeChanges.engine.pending = s.takeChanges.engine.pending := by
    obtain ⟨limit, report, heq⟩ := htaken
    rw [heq]
    rfl
  obtain ⟨hfirst, hlooked⟩ := nextSuspect_alike htaken
  cases nextOutside_eq_iff.1 hnext with
  | propagate h =>
      rw [← hpending] at h
      exact ⟨_, nextOutside_eq_iff.2 (.propagate h), htaken⟩
  | withdraw h hsome =>
      rw [← hpending] at h
      rw [← hfirst] at hsome
      exact ⟨_, nextOutside_eq_iff.2 (.withdraw h hsome), hlooked⟩
  | stop h hnone =>
      rw [← hpending] at h
      rw [← hfirst] at hnone
      exact ⟨_, nextOutside_eq_iff.2 (.stop h hnone), hlooked⟩

private theorem nextInPass_alike (h : s.Alike s') (hnext : s.nextInPass progress = (t, step)) :
    ∃ t', s'.nextInPass progress = (t', step) ∧ t.Alike t' := by
  have hrevived : ∀ {s s' : RunState}, s.Alike s' → ∀ todo,
      s'.nextRevived todo = s.nextRevived todo := by
    rintro s s' ⟨limit, report, rfl⟩ todo
    rfl
  obtain ⟨hfirst, hlooked⟩ := nextSuspect_alike h
  cases nextInPass_eq_iff.1 hnext with
  | withdraw hprogress hsome =>
      rw [← hfirst] at hsome
      exact ⟨_, nextInPass_eq_iff.2 (.withdraw hprogress hsome), hlooked⟩
  | revive hprogress hnone hstep =>
      rw [← hfirst] at hnone
      rw [← hrevived hlooked] at hstep
      exact ⟨_, nextInPass_eq_iff.2 (.revive hprogress hnone hstep), hlooked⟩
  | reinstate hprogress hstep =>
      rw [← hrevived h] at hstep
      exact ⟨_, nextInPass_eq_iff.2 (.reinstate hprogress hstep), h⟩

private theorem finalize_alike (h : s.Alike s') (hrun : s.finalize = .ok t) :
    ∃ t', s'.finalize = .ok t' ∧ t.Alike t' := by
  have hstart : Alike { s with engine := { s.engine with withdrawn := ∅, deferred := ∅ } }
      { s' with engine := { s'.engine with withdrawn := ∅, deferred := ∅ } } := by
    obtain ⟨limit, report, rfl⟩ := h
    exact ⟨limit, report, rfl⟩
  have hsame : s'.engine.withdrawn = s.engine.withdrawn ∧
      s'.engine.deferred = s.engine.deferred := by
    obtain ⟨limit, report, rfl⟩ := h
    exact ⟨rfl, rfl⟩
  unfold finalize at hrun ⊢
  simp only [hsame.1, hsame.2] at hrun ⊢
  have hrelease : ∀ a a' b c, Alike a a' → a.release b = .ok c →
      ∃ c', a'.release b = .ok c' ∧ Alike c c' := fun _ _ _ _ => release_alike
  have hretract : ∀ a a' b, Alike a a' → Alike (a.retract b) (a'.retract b) :=
    fun _ _ _ => retract_alike
  exact Result.foldlM_related Alike hrelease (Result.foldl_related Alike hretract hstart) hrun

theorem Alike.next (h : s.Alike s') (hrun : s.next progress = .ok (t, step)) :
    ∃ t', s'.next progress = .ok (t', step) ∧ t.Alike t' := by
  have hrederiving : s'.engine.isRederiving = s.engine.isRederiving := by
    obtain ⟨limit, report, rfl⟩ := h
    rfl
  cases next_eq_ok_iff.1 hrun with
  | outside hidle hnext =>
      obtain ⟨t', hnext', halike⟩ := nextOutside_alike h hnext
      exact ⟨t', next_eq_ok_iff.2 (.outside (hrederiving ▸ hidle) hnext'), halike⟩
  | inPass hpass hnext =>
      obtain ⟨t', hnext', halike⟩ := nextInPass_alike h hnext
      exact ⟨t', next_eq_ok_iff.2 (.inPass (hrederiving ▸ hpass) hnext'), halike⟩
  | finish hpass hnext hfinalize hlast =>
      obtain ⟨s₁', hnext', halike⟩ := nextInPass_alike h hnext
      obtain ⟨s₂', hfinalize', halike⟩ := finalize_alike halike hfinalize
      obtain ⟨t', hlast', halike⟩ := nextOutside_alike halike hlast
      exact ⟨t', next_eq_ok_iff.2 (.finish (hrederiving ▸ hpass) hnext' hfinalize' hlast'), halike⟩

/-! ## A run -/

/-- Runs from states that are alike end alike: both quiet, or both out of rounds. -/
theorem Alike.run (h : s.Alike s') (hs : s.Upholds False progress) (rounds : Nat) :
    (∃ t t', s.run progress rounds = .ok t ∧ s'.run progress rounds = .ok t' ∧ t.Alike t') ∨
    ∃ stopped stopped', s.run progress rounds = .error stopped ∧
      s'.run progress rounds = .error stopped' ∧ stopped.state.Alike stopped'.state := by
  induction rounds generalizing s s' progress with
  | zero =>
      obtain ⟨s₁, step, hnext, _⟩ := next_spec hs
      obtain ⟨s₁', hnext', halike⟩ := h.next hnext
      rw [RunState.run, RunState.run, hnext, hnext', Result.ok_bind, Result.ok_bind]
      cases step with
      | none => exact Or.inl ⟨s₁, s₁', rfl, rfl, halike⟩
      | some step => exact Or.inr ⟨_, _, rfl, rfl, halike⟩
  | succ rounds ih =>
      obtain ⟨s₁, step, hnext, hdecided, _⟩ := next_spec hs
      obtain ⟨s₁', hnext', halike⟩ := h.next hnext
      rw [RunState.run, RunState.run, hnext, hnext', Result.ok_bind, Result.ok_bind]
      cases step with
      | none => exact Or.inl ⟨s₁, s₁', rfl, rfl, halike⟩
      | some step =>
          obtain ⟨round, progress'⟩ := step
          obtain ⟨s₂, hperform, hupholds, _⟩ := perform_spec hdecided.1 hdecided.2 False.elim
          obtain ⟨s₂', hperform', halike'⟩ := halike.perform hperform
          simp only [hperform, hperform', Result.ok_bind]
          exact ih halike' hupholds

end RunState

end Entail
