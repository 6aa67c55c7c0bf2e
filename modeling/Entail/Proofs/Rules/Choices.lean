import Entail.Proofs.Rules.Effects
/-!
# Choices

Which round comes next, and what choosing it does: changes that wait may be taken from the store and
stale suspects dropped, and at the end of a pass the withdrawn quads leave the store.
-/

namespace Entail.RunState

open RuleEngine

variable {s s' s'' : RunState} {progress : Progress} {round : Round}

/-- Nothing changes but which of the waiting changes are pending, and which quads are suspects. -/
structure Keeps (s s' : RunState) : Prop where
  frame : s.Frame s'
  announces : s.store.Announces (· ≠ s.engine.subscription) [] s'.store
  subscription_eq : s'.engine.subscription = s.engine.subscription
  queue_eq : s'.engine.queue s'.store = s.engine.queue s.store
  withdrawn_eq : s'.engine.withdrawn = s.engine.withdrawn
  deferred_eq : s'.engine.deferred = s.engine.deferred

theorem Keeps.refl (s : RunState) : s.Keeps s :=
  ⟨.refl s, .refl _ _, rfl, rfl, rfl, rfl⟩

theorem Keeps.trans (h : s.Keeps s') (h' : s'.Keeps s'') : s.Keeps s'' where
  frame := h.frame.trans h'.frame
  announces := h.announces.trans (h.subscription_eq ▸ h'.announces)
  subscription_eq := h'.subscription_eq.trans h.subscription_eq
  queue_eq := h'.queue_eq.trans h.queue_eq
  withdrawn_eq := h'.withdrawn_eq.trans h.withdrawn_eq
  deferred_eq := h'.deferred_eq.trans h.deferred_eq

theorem Keeps.contents_eq (h : s.Keeps s') : s'.store.contents = s.store.contents :=
  h.announces.contents_eq

private theorem keeps_nextSuspect (s : RunState) : s.Keeps s.nextSuspect.2 :=
  ⟨⟨rfl, rfl, fun _ => rfl, fun _ _ => Iff.rfl⟩, .refl _ _, rfl, rfl, rfl, rfl⟩

/-! ## Outside a pass -/

/-- What is chosen outside a pass. -/
inductive Outside (s : RunState) : RunState × Option (Round × Progress) → Prop where
  | propagate {s' : RunState} {c : Change Quad} {rest more : List (Change Quad)} :
    s.engine.queue s.store = c :: rest → s'.engine.pending = c :: more →
    s'.engine.suspects = s.engine.suspects → s.Keeps s' →
    Outside s (s', some (.propagate c, .idle))
  | withdraw {s' : RunState} {q : Quad} :
    s.engine.queue s.store = [] → q ∈ s.engine.suspects → s.Keeps s' →
    Outside s (s', some (.withdraw q, .withdrawing))
  | stop {s' : RunState} : s.engine.queue s.store = [] → s.Keeps s' → Outside s (s', none)

theorem Outside.keeps {step : Option (Round × Progress)} (h : s.Outside (s', step)) :
    s.Keeps s' := by
  cases h with
  | propagate _ _ _ hkeeps => exact hkeeps
  | withdraw _ _ hkeeps => exact hkeeps
  | stop _ hkeeps => exact hkeeps

theorem Outside.mem_queue {c : Change Quad} (h : s.Outside (s', some (.propagate c, progress))) :
    c ∈ s.engine.queue s.store := by
  cases h with
  | propagate hqueue _ _ _ =>
      rw [hqueue]
      exact List.mem_cons_self

private theorem takeChanges_keeps (h : s.Standing False [] []) :
    s.Keeps s.takeChanges ∧ s.takeChanges.engine.suspects = s.engine.suspects ∧
      (s.takeChanges.engine.pending = [] → s.engine.queue s.store = []) := by
  unfold takeChanges
  by_cases hpending : s.engine.pending = []
  · rw [if_pos (List.isEmpty_iff.2 hpending)]
    obtain ⟨hqueue, _⟩ := h.ledger.drain hpending
    refine ⟨?_, rfl, fun hnone => ?_⟩
    · constructor
      · exact ⟨rfl, rfl, fun _ => rfl, fun _ _ => Iff.rfl⟩
      · exact .drain _ _
      · rfl
      · exact hqueue
      · rfl
      · rfl
    · have hdrained : s.store.feed.waiting s.engine.subscription = [] := hnone
      rw [queue, hpending, hdrained]
      rfl
  · have hsome : ¬ s.engine.pending.isEmpty = true := by
      rw [List.isEmpty_iff]
      exact hpending
    rw [if_neg hsome]
    exact ⟨.refl s, rfl, fun hnone => absurd hnone hpending⟩

private theorem mem_of_nextSuspect {q : Quad} (h : s.nextSuspect.1 = some q) :
    q ∈ s.engine.suspects := by
  have hq : q ∈ s.engine.suspects.toList.dropWhile s.isStale := List.mem_of_mem_head? h
  exact OrderedSet.mem_toList_iff.1 ((List.dropWhile_suffix _).subset hq)

theorem nextOutside_outside (h : s.Standing False [] []) : s.Outside s.nextOutside := by
  obtain ⟨hkeeps, hsuspects, hempty⟩ := takeChanges_keeps h
  have hkeeps' := hkeeps.trans (keeps_nextSuspect _)
  generalize hnext : s.nextOutside = choice
  cases nextOutside_eq_iff.1 hnext with
  | @propagate c rest hpending =>
      have hqueue : s.engine.queue s.store =
          c :: (rest ++ s.takeChanges.store.feed.waiting s.takeChanges.engine.subscription) := by
        rw [← hkeeps.queue_eq, queue, hpending, List.cons_append]
      exact .propagate hqueue hpending hsuspects hkeeps
  | withdraw hpending hfirst =>
      exact .withdraw (hempty hpending) (hsuspects ▸ mem_of_nextSuspect hfirst) hkeeps'
  | stop hpending _ => exact .stop (hempty hpending) hkeeps'

/-! ## In a pass -/

/-- What is chosen in a pass: to withdraw on, to reinstate when no suspect is left, or to end it when
no withdrawn quad is supported. -/
inductive Within (s : RunState) : Progress → RunState × Option (Round × Progress) → Prop where
  | withdraw {s' : RunState} {q : Quad} :
    s.Keeps s' → Within s .withdrawing (s', some (.withdraw q, .withdrawing))
  | reinstate {s' : RunState} {progress : Progress} {q : Quad} {todo : List Quad} :
    s.Keeps s' → s'.engine.suspects = ∅ →
    Within s progress (s', some (.reinstate q, .reinstating todo))
  | finish {s₁ s₂ : RunState} {progress : Progress} :
    s.Keeps s₁ → s₁.engine.suspects = ∅ → s₁.Standing False [] [] →
    (∀ q ∈ s₁.engine.withdrawn, s₁.engine.support.total q = 0) → s₁.finalize = .ok s₂ →
    Within s progress s₂.nextOutside

theorem next_within (h : s.Upholds False progress) (hpass : progress ≠ .idle)
    (hsuspects : ∀ todo, progress = .reinstating todo → s.engine.suspects = ∅) :
    ∃ choice, s.next progress = .ok choice ∧ s.Within progress choice := by
  have hend : ∀ {s₁ : RunState}, s.nextInPass progress = (s₁, none) →
      ∃ last, s₁.finalize = .ok last := by
    intro s₁ hnext
    obtain ⟨hstanding, _⟩ := nextInPass_spec h.standing hnext
    obtain ⟨store, report, hfinalize, _⟩ := finalize_spec hstanding (nextInPass_eq_none hnext)
    exact ⟨_, hfinalize⟩
  obtain ⟨s', step, hchooses⟩ := exists_chooses s progress fun _ => hend
  refine ⟨_, next_eq_ok_iff.2 hchooses, ?_⟩
  cases hchooses with
  | outside hidle _ => exact absurd hidle.1 hpass
  | inPass _ hnext =>
      cases nextInPass_eq_iff.1 hnext with
      | withdraw hprogress _ =>
          cases progress with
          | idle => exact absurd rfl hpass
          | withdrawing => exact .withdraw (keeps_nextSuspect s)
          | reinstating todo => exact absurd rfl (hprogress todo)
      | revive _ hnone hrevived =>
          obtain ⟨q, rest, rfl, rfl, _⟩ := nextRevived_eq_some hrevived
          exact .reinstate (keeps_nextSuspect s) (nextSuspect_eq_none hnone)
      | reinstate hprogress hrevived =>
          obtain ⟨q, rest, rfl, rfl, _⟩ := nextRevived_eq_some hrevived
          exact .reinstate (.refl s) (hsuspects _ hprogress)
  | @finish s₁ last _ _ hnext hfinalize hlast =>
      obtain ⟨hstanding, _⟩ := nextInPass_spec h.standing hnext
      have hzero := nextInPass_eq_none hnext
      have hkeeps : s.Keeps s₁ ∧ s₁.engine.suspects = ∅ := by
        cases nextInPass_eq_iff.1 hnext with
        | revive _ hnone _ => exact ⟨keeps_nextSuspect s, nextSuspect_eq_none hnone⟩
        | reinstate hprogress _ => exact ⟨.refl s, hsuspects _ hprogress⟩
      exact hlast ▸ .finish hkeeps.1 hkeeps.2 hstanding hzero hfinalize

theorem next_idle (h : s.Standing False [] []) (hwithdrawn : s.engine.withdrawn = ∅)
    (hdeferred : s.engine.deferred = ∅) :
    s.next .idle = .ok s.nextOutside ∧ s.Outside s.nextOutside := by
  refine ⟨?_, nextOutside_outside h⟩
  rw [next, if_pos ⟨rfl, isRederiving_eq_false_iff.2 ⟨hwithdrawn, hdeferred⟩⟩]

/-! ## What waits after a round -/

theorem Performs.queue_propagate {c : Change Quad} {more : List (Change Quad)}
    (h : s.Performs (.propagate c) s') (hs : s.Standing False [] [])
    (hpending : s.engine.pending = c :: more) :
    ∃ changes, (∀ x ∈ changes, s.Allows (.propagate c) x) ∧
      s'.engine.queue s'.store = (s.engine.queue s.store).tail ++ changes := by
  obtain ⟨changes, hall, hannounces⟩ := h.publishes.announces
  obtain ⟨_, hwaiting⟩ := hannounces.waiting _ trivial hs.ledger.subscribed
  refine ⟨changes, hall, ?_⟩
  have htail : s'.engine.pending = more := by
    rw [h.pending_eq, start, hpending]
    rfl
  rw [queue, h.subscription_eq, hwaiting, htail, queue, hpending, List.cons_append, List.tail_cons,
    List.append_assoc]

theorem Performs.queue_of_store_eq (h : s.Performs round s') (hstore : s'.store = s.store)
    (hphase : round.phase ≠ .outside) :
    s'.engine.queue s'.store = s.engine.queue s.store := by
  have hpending : s'.engine.pending = s.engine.pending := by
    rw [h.pending_eq]
    cases round with
    | propagate c => exact absurd rfl hphase
    | withdraw q => rfl
    | reinstate q => rfl
  rw [queue, h.subscription_eq, hstore, hpending, queue]

end Entail.RunState
