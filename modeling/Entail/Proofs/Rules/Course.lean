import Entail.Proofs.Rules.Rounds
import Mathlib.Data.List.TakeWhile
/-!
# The course of a run

All the ways in which a run chooses its next round, and what a choice keeps.
-/

namespace Entail

theorem RuleEngine.isRederiving_eq_false_iff {e : RuleEngine} :
    e.isRederiving = false ↔ e.withdrawn = ∅ ∧ e.deferred = ∅ := by
  rw [isRederiving, Bool.or_eq_false_iff, Bool.not_eq_false', Bool.not_eq_false',
    OrderedSet.isEmpty_iff, OrderedSet.isEmpty_iff]
  exact Iff.rfl

namespace RunState

open RuleEngine

variable {P : RunState → Prop} {s s' : RunState} {q : Quad} {round : Round}
  {progress progress' : Progress} {step : Option (Round × Progress)}
  {choice : RunState × Option (Round × Progress)} {todo : List Quad}

/-! ## Changes that wait -/

theorem takeChanges_eq (s : RunState) : ∃ pending store,
    s.takeChanges = ⟨{ s.engine with pending }, store, s.report⟩ := by
  unfold takeChanges
  split
  · exact ⟨_, _, rfl⟩
  · exact ⟨_, _, rfl⟩

@[simp] theorem withdrawn_takeChanges (s : RunState) :
    s.takeChanges.engine.withdrawn = s.engine.withdrawn := by
  obtain ⟨_, _, heq⟩ := s.takeChanges_eq
  rw [heq]

@[simp] theorem deferred_takeChanges (s : RunState) :
    s.takeChanges.engine.deferred = s.engine.deferred := by
  obtain ⟨_, _, heq⟩ := s.takeChanges_eq
  rw [heq]

theorem queue_takeChanges (s : RunState) :
    s.takeChanges.engine.queue s.takeChanges.store = s.engine.queue s.store := by
  unfold takeChanges
  split
  · rename_i hempty
    have hwaiting : (s.store.drain s.engine.subscription).2.feed.waiting s.engine.subscription =
        [] := ChangeFeed.waiting_drain _ _
    rw [queue, queue, hwaiting, List.append_nil, List.isEmpty_iff.1 hempty]
    rfl
  · rfl

theorem takeChanges_queue_eq (h : s.takeChanges.engine.pending = []) :
    s.takeChanges.engine.queue s.takeChanges.store = [] := by
  rw [queue, h, List.nil_append]
  unfold takeChanges at h ⊢
  split at h
  · rename_i hempty
    rw [if_pos hempty]
    exact ChangeFeed.waiting_drain _ _
  · rename_i hsome
    exact absurd (List.isEmpty_iff.2 h) hsome

/-! ## The first suspect -/

theorem nextSuspect_eq_some (h : s.nextSuspect.1 = some q) :
    q ∈ s.nextSuspect.2.engine.suspects ∧ s.store.contents.Has q ∧ q ∉ s.engine.withdrawn := by
  have hhead : (s.engine.suspects.toList.dropWhile s.isStale).head? = some q := h
  have hnot := List.head?_dropWhile_not s.isStale s.engine.suspects.toList
  rw [hhead] at hnot
  simp only [isStale, Bool.or_eq_false_iff, Bool.not_eq_false'] at hnot
  refine ⟨OrderedSet.mem_ofList.2 (List.mem_of_mem_head? hhead), hnot.2, ?_⟩
  intro hq
  exact Bool.false_ne_true (hnot.1.symm.trans hq)

theorem nextSuspect_eq_none (h : s.nextSuspect.1 = none) :
    s.nextSuspect.2.engine.suspects = ∅ := by
  have hhead : (s.engine.suspects.toList.dropWhile s.isStale).head? = none := h
  have hsuspects : s.nextSuspect.2.engine.suspects =
      .ofList (s.engine.suspects.toList.dropWhile s.isStale) := rfl
  rw [hsuspects, List.head?_eq_none_iff.1 hhead]
  rfl

/-! ## Quads to reinstate -/

theorem mem_revived : q ∈ s.revived ↔ q ∈ s.engine.withdrawn ∧ 0 < s.engine.support.total q := by
  rw [revived, List.mem_filter, OrderedSet.mem_toList_iff, decide_eq_true_eq]

theorem nextRevived_eq_some (h : s.nextRevived todo = some (round, progress)) :
    ∃ q rest, round = .reinstate q ∧ progress = .reinstating rest ∧
      (todo = q :: rest ∨ s.revived = q :: rest) := by
  unfold nextRevived at h
  split at h
  · cases h
  · rename_i q rest heq
    obtain ⟨rfl, rfl⟩ := Prod.mk.inj (Option.some.inj h)
    refine ⟨q, rest, rfl, rfl, ?_⟩
    split at heq
    · exact Or.inr heq
    · exact Or.inl heq

theorem nextRevived_eq_none (h : s.nextRevived todo = none) :
    ∀ q ∈ s.engine.withdrawn, s.engine.support.total q = 0 := by
  intro q hq
  unfold nextRevived at h
  split at h
  · rename_i hnone
    split at hnone
    · by_contra hpos
      have hrevived : q ∈ s.revived := mem_revived.2 ⟨hq, Nat.pos_of_ne_zero hpos⟩
      rw [hnone] at hrevived
      exact List.not_mem_nil hrevived
    · rename_i hsome
      exact absurd (List.isEmpty_iff.2 hnone) hsome
  · cases h

theorem ready_of_nextRevived (hdue : s.IsDue (.reinstating todo))
    (h : s.nextRevived todo = some (round, progress)) : s.Ready round progress := by
  obtain ⟨q, rest, rfl, rfl, rfl | hrevived⟩ := nextRevived_eq_some h
  · obtain ⟨hnodup, hmem⟩ := hdue _ rfl
    exact .reinstate hnodup hmem
  · refine .reinstate (hrevived ▸ s.engine.withdrawn.nodup_toList.filter _) fun x hx => ?_
    exact (mem_revived.1 (hrevived ▸ hx)).1

/-- Either some quad is to be reinstated, or none of those withdrawn is supported. -/
theorem nextRevived_spec (s : RunState) {todo : List Quad}
    (hnodup : todo.Nodup) (htodo : ∀ q ∈ todo, q ∈ s.engine.withdrawn) :
    (∃ q rest, s.nextRevived todo = some (.reinstate q, .reinstating rest) ∧
      s.Ready (.reinstate q) (.reinstating rest)) ∨
    (s.nextRevived todo = none ∧ ∀ q ∈ s.engine.withdrawn, s.engine.support.total q = 0) := by
  have hdue : s.IsDue (.reinstating todo) := by
    rintro _ ⟨⟩
    exact ⟨hnodup, htodo⟩
  cases hnext : s.nextRevived todo with
  | none => exact Or.inr ⟨rfl, nextRevived_eq_none hnext⟩
  | some step =>
      have hready := ready_of_nextRevived hdue hnext
      obtain ⟨q, rest, hround, hprogress, _⟩ := nextRevived_eq_some hnext
      obtain ⟨round, progress⟩ := step
      subst hround hprogress
      exact Or.inl ⟨q, rest, rfl, hready⟩

/-! ## Outside a pass -/

/-- Outside a pass the next round propagates the first change, or else withdraws the first suspect. -/
inductive ChoosesOutside (s : RunState) : RunState × Option (Round × Progress) → Prop where
  | propagate {c : Change Quad} {rest : List (Change Quad)} :
    s.takeChanges.engine.pending = c :: rest →
    ChoosesOutside s (s.takeChanges, some (.propagate c, .idle))
  | withdraw {q : Quad} :
    s.takeChanges.engine.pending = [] → s.takeChanges.nextSuspect.1 = some q →
    ChoosesOutside s (s.takeChanges.nextSuspect.2, some (.withdraw q, .withdrawing))
  | stop :
    s.takeChanges.engine.pending = [] → s.takeChanges.nextSuspect.1 = none →
    ChoosesOutside s (s.takeChanges.nextSuspect.2, none)

theorem nextOutside_eq_iff : s.nextOutside = choice ↔ s.ChoosesOutside choice := by
  constructor
  · intro h
    unfold nextOutside at h
    simp only at h
    split at h
    · rename_i hpending
      exact h ▸ .propagate hpending
    · rename_i hpending
      split at h
      · rename_i s₁ heq
        obtain rfl : s.takeChanges.nextSuspect.2 = s₁ := congrArg Prod.snd heq
        exact h ▸ .withdraw hpending (congrArg Prod.fst heq)
      · rename_i s₁ heq
        obtain rfl : s.takeChanges.nextSuspect.2 = s₁ := congrArg Prod.snd heq
        exact h ▸ .stop hpending (congrArg Prod.fst heq)
  · intro h
    unfold nextOutside
    cases h with
    | propagate hpending => simp only [hpending]
    | withdraw hpending hfirst | stop hpending hfirst =>
        simp only [hpending]
        generalize s.takeChanges.nextSuspect = looked at hfirst ⊢
        obtain ⟨first, s₁⟩ := looked
        cases hfirst
        rfl

theorem nextOutside_inv (hdrain : ∀ s : RunState, P s → P s.takeChanges)
    (hlook : ∀ s : RunState, P s → P s.nextSuspect.2) (hs : P s)
    (h : s.nextOutside = (s', step)) : P s' := by
  cases nextOutside_eq_iff.1 h with
  | propagate => exact hdrain s hs
  | withdraw => exact hlook _ (hdrain s hs)
  | stop => exact hlook _ (hdrain s hs)

theorem ready_of_nextOutside (hidle : s.engine.isRederiving = false)
    (h : s.nextOutside = (s', some (round, progress))) : s'.Ready round progress := by
  obtain ⟨hwithdrawn, hdeferred⟩ := isRederiving_eq_false_iff.1 hidle
  cases nextOutside_eq_iff.1 h with
  | propagate hpending =>
      exact .propagate hpending (s.withdrawn_takeChanges.trans hwithdrawn)
        (s.deferred_takeChanges.trans hdeferred)
  | withdraw _ hfirst =>
      obtain ⟨hsuspect, hhas, hnot⟩ := nextSuspect_eq_some hfirst
      exact .withdraw hsuspect hhas hnot

/-! ## In a pass -/

/-- In a pass the next round withdraws the first suspect. If there is none, or if reinstating has begun,
it reinstates. -/
inductive ChoosesInPass (s : RunState) (progress : Progress) :
    RunState × Option (Round × Progress) → Prop where
  | withdraw {q : Quad} :
    (∀ todo, progress ≠ .reinstating todo) → s.nextSuspect.1 = some q →
    ChoosesInPass s progress (s.nextSuspect.2, some (.withdraw q, .withdrawing))
  | revive {step : Option (Round × Progress)} :
    (∀ todo, progress ≠ .reinstating todo) → s.nextSuspect.1 = none →
    s.nextSuspect.2.nextRevived [] = step → ChoosesInPass s progress (s.nextSuspect.2, step)
  | reinstate {todo : List Quad} {step : Option (Round × Progress)} :
    progress = .reinstating todo → s.nextRevived todo = step → ChoosesInPass s progress (s, step)

theorem nextInPass_eq_iff : s.nextInPass progress = choice ↔ s.ChoosesInPass progress choice := by
  constructor
  · intro h
    unfold nextInPass at h
    split at h
    · exact h ▸ .reinstate rfl rfl
    · rename_i hprogress
      split at h
      · rename_i s₁ heq
        obtain rfl : s.nextSuspect.2 = s₁ := congrArg Prod.snd heq
        exact h ▸ .withdraw (fun todo => hprogress todo) (congrArg Prod.fst heq)
      · rename_i s₁ heq
        obtain rfl : s.nextSuspect.2 = s₁ := congrArg Prod.snd heq
        exact h ▸ .revive (fun todo => hprogress todo) (congrArg Prod.fst heq) rfl
  · intro h
    unfold nextInPass
    cases h with
    | withdraw hprogress hfirst =>
        generalize s.nextSuspect = looked at hfirst ⊢
        obtain ⟨first, s₁⟩ := looked
        cases hfirst
        split
        · exact absurd rfl (hprogress _)
        · rfl
    | revive hprogress hfirst hrevived =>
        generalize s.nextSuspect = looked at hfirst hrevived ⊢
        obtain ⟨first, s₁⟩ := looked
        cases hfirst
        split
        · exact absurd rfl (hprogress _)
        · exact congrArg (Prod.mk s₁) hrevived
    | reinstate hprogress hrevived =>
        subst hprogress
        exact congrArg (Prod.mk s) hrevived

theorem nextInPass_inv (hlook : ∀ s : RunState, P s → P s.nextSuspect.2) (hs : P s)
    (h : s.nextInPass progress = (s', step)) : P s' := by
  cases nextInPass_eq_iff.1 h with
  | withdraw => exact hlook s hs
  | revive => exact hlook s hs
  | reinstate => exact hs

theorem nextInPass_keeps (h : s.nextInPass progress = (s', step)) :
    ∃ suspects, s' = { s with engine := { s.engine with suspects } } := by
  cases nextInPass_eq_iff.1 h with
  | withdraw => exact ⟨_, rfl⟩
  | revive => exact ⟨_, rfl⟩
  | reinstate => exact ⟨_, rfl⟩

theorem ready_of_nextInPass (hdue : s.IsDue progress)
    (h : s.nextInPass progress = (s', some (round, progress'))) : s'.Ready round progress' := by
  cases nextInPass_eq_iff.1 h with
  | withdraw _ hfirst =>
      obtain ⟨hsuspect, hhas, hnot⟩ := nextSuspect_eq_some hfirst
      exact .withdraw hsuspect hhas hnot
  | revive _ _ hrevived =>
      refine ready_of_nextRevived (fun todo hnil => ?_) hrevived
      cases hnil
      exact ⟨List.nodup_nil, fun x hx => absurd hx List.not_mem_nil⟩
  | reinstate hprogress hrevived => exact ready_of_nextRevived (hprogress ▸ hdue) hrevived

theorem nextInPass_eq_some (h : s.nextInPass progress = (s', some (round, progress'))) :
    progress' ≠ .idle ∧ round.phase ≠ .outside := by
  have hrevived : ∀ {s : RunState} {todo : List Quad},
      s.nextRevived todo = some (round, progress') → progress' ≠ .idle ∧ round.phase ≠ .outside := by
    intro s todo h
    obtain ⟨q, rest, rfl, rfl, _⟩ := nextRevived_eq_some h
    exact ⟨nofun, nofun⟩
  cases nextInPass_eq_iff.1 h with
  | withdraw => exact ⟨nofun, nofun⟩
  | revive _ _ h => exact hrevived h
  | reinstate _ h => exact hrevived h

/-- When no round is left, no withdrawn quad is supported. -/
theorem nextInPass_eq_none (h : s.nextInPass progress = (s', none)) :
    ∀ q ∈ s'.engine.withdrawn, s'.engine.support.total q = 0 := by
  cases nextInPass_eq_iff.1 h with
  | revive _ _ hrevived => exact nextRevived_eq_none hrevived
  | reinstate _ hrevived => exact nextRevived_eq_none hrevived

theorem finalize_inv (hretract : ∀ (s : RunState) (q : Quad), P s → P (s.retract q))
    (hrelease : ∀ (s s' : RunState) (q : Quad), P s → s.release q = .ok s' → P s')
    (hs : P { s with engine := { s.engine with withdrawn := ∅, deferred := ∅ } })
    (h : s.finalize = .ok s') : P s' := by
  unfold finalize at h
  simp only at h
  have hretracted := Result.foldl_inv (l := s.engine.withdrawn.toList) (fun s' _ => P s')
    (fun s' q _ hs => hretract s' q hs) hs
  exact Result.foldlM_inv (fun s' _ => P s') (fun s₁ q _ s₂ hs hrun => hrelease s₁ s₂ q hs hrun)
    hretracted h

/-! ## Any round -/

/-- The next round is chosen outside a pass, in one, or after the end of one. -/
inductive Chooses (s : RunState) (progress : Progress) :
    RunState × Option (Round × Progress) → Prop where
  | outside {choice : RunState × Option (Round × Progress)} :
    progress = .idle ∧ s.engine.isRederiving = false → s.nextOutside = choice →
    Chooses s progress choice
  | inPass {s' : RunState} {round : Round} {progress' : Progress} :
    ¬ (progress = .idle ∧ s.engine.isRederiving = false) →
    s.nextInPass progress = (s', some (round, progress')) →
    Chooses s progress (s', some (round, progress'))
  | finish {s' last : RunState} {choice : RunState × Option (Round × Progress)} :
    ¬ (progress = .idle ∧ s.engine.isRederiving = false) →
    s.nextInPass progress = (s', none) → s'.finalize = .ok last → last.nextOutside = choice →
    Chooses s progress choice

theorem next_eq_ok_iff : s.next progress = .ok choice ↔ s.Chooses progress choice := by
  constructor
  · intro h
    unfold next at h
    split at h
    · rename_i hidle
      exact .outside hidle (Except.ok.inj h)
    · rename_i hpass
      split at h
      · rename_i s' step heq
        obtain rfl := Except.ok.inj h
        exact .inPass hpass heq
      · rename_i s' heq
        cases hfinalize : s'.finalize with
        | error stopped =>
            rw [hfinalize] at h
            cases h
        | ok last =>
            rw [hfinalize] at h
            exact .finish hpass heq hfinalize (Except.ok.inj h)
  · intro h
    cases h with
    | outside hidle heq => rw [next, if_pos hidle, heq]
    | inPass hpass heq => rw [next, if_neg hpass, heq]
    | finish hpass heq hfinalize hlast =>
        rw [next, if_neg hpass, heq, ← hlast]
        simp only [hfinalize]
        rfl

/-- A round can be chosen unless the end of a pass fails. -/
theorem exists_chooses (s : RunState) (progress : Progress)
    (hfinalize : ∀ s₁, s.nextInPass progress = (s₁, none) → ∃ last, s₁.finalize = .ok last) :
    ∃ s' step, s.Chooses progress (s', step) := by
  by_cases hidle : progress = .idle ∧ s.engine.isRederiving = false
  · exact ⟨_, _, .outside hidle rfl⟩
  · cases hnext : s.nextInPass progress with
    | mk s₁ step =>
        cases step with
        | some step => exact ⟨_, _, .inPass hidle hnext⟩
        | none =>
            obtain ⟨last, hlast⟩ := hfinalize s₁ hnext
            exact ⟨_, _, .finish hidle hnext hlast rfl⟩

end RunState

end Entail
