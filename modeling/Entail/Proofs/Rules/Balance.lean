import Entail.Proofs.Rules.History
import Entail.Proofs.Rules.Steps
/-!
# Balance

What holds of an engine whatever others do to its store, also to the graph of the conclusions: every
network is fed some set of quads, its rule fires for what comes out, and the support counts what all
rules conclude. A run keeps it so, and ends with an answer or out of rounds; it never ends in a fault.
-/

namespace Entail

open RuleEngine

namespace RunState

variable {s s' : RunState} {q : Quad} {phase : Phase} {round : Round}

/-- The networks need not agree with the store, nor with each other. -/
structure Balanced (s : RunState) : Prop where
  indexed : s.store.contents.IsIndexed
  tracks : s.engine.Tracks fun _ _ => True

theorem Balanced.relabel (h : s.Balanced) (pending : List (Change Quad))
    (suspects withdrawn deferred : OrderedSet Quad) (report : FlushReport) :
    Balanced ⟨{ s.engine with pending, suspects, withdrawn, deferred }, s.store, report⟩ :=
  ⟨h.indexed, h.tracks.named, h.tracks.slots, h.tracks.accounts⟩

theorem Balanced.begin (h : s.Balanced) : (s.engine.begin s.store).Balanced :=
  ⟨h.indexed, h.tracks⟩

theorem Balanced.stored (h : s.Balanced) {store : Store}
    (hstore : store.contents.IsIndexed) (report : FlushReport) :
    Balanced { s with store, report } :=
  ⟨hstore, h.tracks⟩

/-! ## Settling -/

theorem Balanced.release (h : s.Balanced) (q : Quad) :
    ∃ s', s.release q = .ok s' ∧ s'.Balanced := by
  have hvalid : 0 < s.engine.support.total q → q.validate = .ok () := by
    intro hpos
    obtain ⟨r, t, _, hconcludes⟩ := h.tracks.total_pos_iff.1 hpos
    exact hconcludes.isConclusion.valid
  obtain ⟨store, report, hrun, hcases⟩ := release_spec hvalid
  refine ⟨_, hrun, h.stored ?_ report⟩
  rcases hcases with ⟨rfl, _⟩ | ⟨_, _, rfl⟩
  · exact h.indexed
  · exact h.indexed.apply _

theorem Balanced.of_release (h : s.Balanced) (hrun : s.release q = .ok s') : s'.Balanced :=
  Result.of_exists_ok (h.release q) hrun

theorem Balanced.retract (h : s.Balanced) (q : Quad) : (s.retract q).Balanced := by
  obtain ⟨store, report, hrun, hcases⟩ := retract_spec s q
  rw [hrun]
  refine h.stored ?_ report
  rcases hcases with ⟨rfl, _⟩ | ⟨_, rfl⟩
  · exact h.indexed
  · exact h.indexed.apply _

theorem Balanced.settleRaised (h : s.Balanced) (phase : Phase) (q : Quad) :
    ∃ s', RunState.settleRaised phase s q = .ok s' ∧ s'.Balanced := by
  cases phase with
  | outside => exact h.release q
  | withdrawing => exact ⟨_, rfl, h.relabel _ _ _ _ _⟩
  | reinstating => exact ⟨_, rfl, h.relabel _ _ _ _ _⟩

theorem Balanced.settleLowered (h : s.Balanced) (phase : Phase) (q : Quad) :
    (RunState.settleLowered phase s q).Balanced := by
  have hsuspects : ∀ suspects : OrderedSet Quad,
      Balanced { s with engine := { s.engine with suspects } } := fun suspects =>
    h.relabel s.engine.pending suspects s.engine.withdrawn s.engine.deferred s.report
  cases phase with
  | withdrawing =>
      simp only [RunState.settleLowered]
      split
      · exact h
      · exact hsuspects _
  | outside | reinstating =>
      simp only [RunState.settleLowered]
      split
      · split
        · exact hsuspects _
        · exact (hsuspects _).retract q
      · exact hsuspects _

theorem Balanced.settle (h : s.Balanced) (phase : Phase) :
    ∃ s', s.settle phase = .ok s' ∧ s'.Balanced := by
  have htaken : s.taken.Balanced :=
    ⟨h.indexed, h.tracks.named, h.tracks.slots, h.tracks.accounts.settled⟩
  obtain ⟨s₁, hraised, h₁⟩ := Result.foldlM_ok (l := s.engine.support.raised)
    (fun (s' : RunState) _ => s'.Balanced)
    (fun _ q _ hs => Balanced.settleRaised hs phase q) htaken
  have h₂ := Result.foldl_inv (l := s.engine.support.lowered) (fun (s' : RunState) _ => s'.Balanced)
    (fun _ q _ hs => Balanced.settleLowered hs phase q) h₁
  refine ⟨_, ?_, h₂⟩
  unfold RunState.settle
  simp only
  rw [← taken, hraised, Result.ok_bind]
  rfl

theorem Balanced.of_settle (h : s.Balanced) (hrun : s.settle phase = .ok s') : s'.Balanced :=
  Result.of_exists_ok (h.settle phase) hrun

/-! ## One round -/

theorem Balanced.start (h : s.Balanced) (round : Round) : (s.start round).Balanced := by
  cases round with
  | propagate c => exact h.relabel _ _ _ _ _
  | withdraw q => exact h.relabel _ _ _ _ _
  | reinstate q => exact h.relabel _ _ _ _ _

/-- The networks can be told of any change, whether or not the store has seen it. -/
theorem Balanced.inject (h : s.Balanced) (c : Change Quad) :
    ∃ s', s.inject c = .ok s' ∧ s'.Balanced := by
  obtain ⟨failures, e, hrun, _, _, htracks, _⟩ := h.tracks.inject c
  refine ⟨⟨e, s.store, { s.report with failures := s.report.failures ++ failures }⟩, ?_,
    h.indexed, htracks.mono fun _ _ _ => trivial⟩
  unfold RunState.inject attempt
  rw [hrun]
  rfl

theorem Balanced.of_inject {c : Change Quad} (h : s.Balanced) (hrun : s.inject c = .ok s') :
    s'.Balanced :=
  Result.of_exists_ok (h.inject c) hrun

theorem Balanced.perform (h : s.Balanced) (round : Round) :
    ∃ s', s.perform round = .ok s' ∧ s'.Balanced := by
  obtain ⟨s₁, hinject, h₁⟩ := (h.start round).inject round.change
  obtain ⟨s₂, hsettle, h₂⟩ := h₁.settle round.phase
  refine ⟨s₂, ?_, h₂⟩
  rw [RunState.perform, hinject, Result.ok_bind, hsettle]

theorem Balanced.of_perform (h : s.Balanced) (hrun : s.perform round = .ok s') : s'.Balanced :=
  Result.of_exists_ok (h.perform round) hrun

/-! ## A run

Whatever the state it starts in is in the middle of.
-/

theorem Balanced.nextSuspect (h : s.Balanced) : s.nextSuspect.2.Balanced :=
  h.relabel s.engine.pending _ s.engine.withdrawn s.engine.deferred s.report

theorem Balanced.takeChanges (h : s.Balanced) : s.takeChanges.Balanced := by
  unfold RunState.takeChanges
  split
  · exact ⟨h.indexed, h.tracks.named, h.tracks.slots, h.tracks.accounts⟩
  · exact h

theorem Balanced.finalize (h : s.Balanced) : ∃ s', s.finalize = .ok s' ∧ s'.Balanced := by
  have hcleared := h.relabel s.engine.pending s.engine.suspects ∅ ∅ s.report
  have hretracted := Result.foldl_inv (l := s.engine.withdrawn.toList)
    (fun (s' : RunState) _ => s'.Balanced) (fun _ q _ hs => hs.retract q) hcleared
  obtain ⟨s', hrun, hs'⟩ := Result.foldlM_ok (l := s.engine.deferred.toList)
    (fun (s' : RunState) _ => s'.Balanced) (fun _ q _ hs => hs.release q) hretracted
  exact ⟨s', hrun, hs'⟩

theorem Balanced.of_finalize (h : s.Balanced) (hrun : s.finalize = .ok s') : s'.Balanced :=
  Result.of_exists_ok h.finalize hrun

theorem Balanced.isKept : IsKept Balanced where
  drain := takeChanges
  look := nextSuspect
  perform h _ := h.perform _
  finish h _ := h.finalize

end RunState

end Entail
