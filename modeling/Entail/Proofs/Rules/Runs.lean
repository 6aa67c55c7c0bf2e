import Entail.Proofs.Rules.Course
/-!
# Runs

A run ends in a quiet state or is out of rounds; nothing else can stop it. The ledger holds all the
way, also where a run is cut short, and the grounds as long as only supported quads are reinstated.
-/

namespace Entail

/-- Nothing waits, and no conclusion is in doubt. -/
structure RuleEngine.IsQuiet (e : RuleEngine) (σ : Store) : Prop where
  queue_eq : e.queue σ = []
  suspects_eq : e.suspects = ∅
  withdrawn_eq : e.withdrawn = ∅
  deferred_eq : e.deferred = ∅

namespace RunState

open RuleEngine

variable {clean : Prop} {s s' : RunState} {progress : Progress}

/-- Every quad that the run reinstates is supported when its turn comes. -/
def isSteady (s : RunState) (progress : Progress) : Nat → Bool
  | 0 => true
  | rounds + 1 =>
    match s.next progress with
    | .ok (s, some (round, progress)) =>
      let supported : Bool := match round with
        | .reinstate q => 0 < s.engine.support.total q
        | _ => true
      supported &&
        match s.perform round with
        | .ok s => s.isSteady progress rounds
        | .error _ => true
    | _ => true

/-! ## The first suspect -/

private theorem mem_dropWhile_or {α : Type} {p : α → Bool} {l : List α} {a : α} (h : a ∈ l) :
    a ∈ l.dropWhile p ∨ p a = true := by
  rw [← List.takeWhile_append_dropWhile (p := p) (l := l), List.mem_append] at h
  rcases h with htake | hdrop
  · exact Or.inr (List.mem_takeWhile_imp htake)
  · exact Or.inl hdrop

theorem Standing.nextSuspect (h : s.Standing clean [] []) :
    s.nextSuspect.2.Standing clean [] [] := by
  have hmem : ∀ x, x ∈ OrderedSet.ofList (s.engine.suspects.toList.dropWhile s.isStale) ↔
      x ∈ s.engine.suspects.toList.dropWhile s.isStale := fun x => OrderedSet.mem_ofList
  have hsub : ∀ x ∈ s.engine.suspects.toList.dropWhile s.isStale, x ∈ s.engine.suspects :=
    fun x hx => OrderedSet.mem_toList_iff.1 ((List.dropWhile_suffix _).subset hx)
  refine h.regroup _ s.engine.deferred (fun _ => Or.inl) (fun x hx => ?_) fun x hx => ?_
  · have hlive := hx.resolve_right List.not_mem_nil
    exact Or.inl (hsub x ((hmem x).1 hlive))
  · have hx' : x ∈ s.engine.suspects := hx.resolve_right List.not_mem_nil
    rcases mem_dropWhile_or (p := s.isStale) (OrderedSet.mem_toList_iff.2 hx') with hlive | hstale
    · exact Or.inl (Or.inl ((hmem x).2 hlive))
    · rw [isStale, Bool.or_eq_true, Bool.not_eq_true', ← Bool.not_eq_true] at hstale
      exact Or.inr hstale

/-! ## The end of a pass -/

/-- The engine of `s` after the pass, while the quads of `rest` are still to leave the store. -/
private structure Leaving (clean : Prop) (s s' : RunState) (rest : List Quad) : Prop where
  engine_eq : s'.engine = { s.engine with withdrawn := ∅, deferred := ∅ }
  ledger : Ledger clean { s.engine with withdrawn := ∅, deferred := ∅ } s'.store (· ∈ rest)
    (· ∈ s.engine.deferred) (· ∈ s.engine.suspects)
  grounded : clean → AllGrounded { s.engine with withdrawn := ∅, deferred := ∅ } s'.store
    (· ∈ rest) (· ∈ s.engine.suspects)
  nodup : rest.Nodup
  unsupported : ∀ q ∈ rest, s.engine.support.total q = 0
  base_iff : ∀ x, x.graph ≠ s.engine.graph →
    (s'.store.contents.Has x ↔ s.store.contents.Has x)

private theorem leaving_start (h : s.Standing clean [] [])
    (hzero : ∀ q ∈ s.engine.withdrawn, s.engine.support.total q = 0) :
    Leaving clean s { s with engine := { s.engine with withdrawn := ∅, deferred := ∅ } }
      s.engine.withdrawn.toList where
  engine_eq := rfl
  ledger := (h.ledger.relabel _ _ _).mono (fun _ => OrderedSet.mem_toList_iff.symm)
    (fun _ hx => Or.inl (hx.resolve_right List.not_mem_nil)) fun _ => Or.inl
  grounded hc := ((h.grounded hc).relabel _ _ _ _).mono (fun _ => OrderedSet.mem_toList_iff.symm)
    fun _ hx => Or.inl (hx.resolve_right List.not_mem_nil)
  nodup := s.engine.withdrawn.nodup_toList
  unsupported q hq := hzero q (OrderedSet.mem_toList_iff.1 hq)
  base_iff _ _ := Iff.rfl

private theorem Leaving.step {s' : RunState} {q : Quad} {rest : List Quad}
    (h : Leaving clean s s' (q :: rest)) : Leaving clean s (s'.retract q) rest := by
  obtain ⟨hnot, hrest⟩ := List.nodup_cons.1 h.nodup
  have hother : ∀ x, x ≠ q → (x ∈ q :: rest ↔ x ∈ rest) := by
    intro x hx
    rw [List.mem_cons, or_iff_right hx]
  have hhas := h.ledger.hidden_stored q List.mem_cons_self
  have hgraph : q.graph = s.engine.graph := h.ledger.hidden_graph q List.mem_cons_self
  obtain ⟨store, report, hrun, hcases⟩ := retract_spec s' q
  have hzero := h.unsupported q List.mem_cons_self
  rcases hcases with ⟨_, hnone⟩ | ⟨_, rfl⟩
  · exact absurd hhas hnone
  rw [hrun]
  constructor
  · exact h.engine_eq
  · exact h.ledger.take_lost hzero hother hnot
  · exact fun hc => (h.grounded hc).take_lost h.ledger hother
  · exact hrest
  · exact fun x hx => h.unsupported x (List.mem_cons_of_mem q hx)
  · intro x hx
    have hne : x ≠ q := by
      rintro rfl
      exact hx hgraph
    rw [← h.base_iff x hx]
    exact Store.has_take_of_ne (c := .lost q) hne

private theorem retractAll_spec (h : s.Standing clean [] [])
    (hzero : ∀ q ∈ s.engine.withdrawn, s.engine.support.total q = 0) :
    ∃ store report,
      s.engine.withdrawn.toList.foldl RunState.retract
          { s with engine := { s.engine with withdrawn := ∅, deferred := ∅ } } =
        ⟨{ s.engine with withdrawn := ∅, deferred := ∅ }, store, report⟩ ∧
      Standing clean ⟨{ s.engine with withdrawn := ∅, deferred := ∅ }, store, report⟩
        s.engine.deferred.toList [] ∧
      s.Frame ⟨{ s.engine with withdrawn := ∅, deferred := ∅ }, store, report⟩ := by
  have hnone : ∀ x : Quad, x ∈ ([] : List Quad) ↔ x ∈ (∅ : OrderedSet Quad) :=
    fun x => iff_of_false List.not_mem_nil (OrderedSet.not_mem_empty x)
  have hlast := Result.foldl_inv (Leaving clean s) (fun _ _ _ => Leaving.step)
    (leaving_start h hzero)
  generalize s.engine.withdrawn.toList.foldl RunState.retract
    { s with engine := { s.engine with withdrawn := ∅, deferred := ∅ } } = last at *
  obtain ⟨e, store, report⟩ := last
  obtain rfl : e = { s.engine with withdrawn := ∅, deferred := ∅ } := hlast.engine_eq
  refine ⟨store, report, rfl, ⟨?_, fun hc => ?_⟩, ⟨rfl, rfl, fun _ => rfl, hlast.base_iff⟩⟩
  · refine hlast.ledger.mono hnone (fun x hx => ?_) fun x hx => ?_
    · exact Or.inl (Or.inr (OrderedSet.mem_toList_iff.2 hx))
    · exact hx.resolve_right List.not_mem_nil
  · exact (hlast.grounded hc).mono hnone fun x hx => Or.inl (Or.inl hx)

/-- The engine of `s` after the pass, while the quads of `rest` are still to enter the store. -/
private structure Entering (clean : Prop) (s s' : RunState) (rest : List Quad) : Prop where
  standing : s'.Standing clean rest []
  engine_eq : s'.engine = { s.engine with withdrawn := ∅, deferred := ∅ }
  frame : s.Frame s'

private theorem Entering.step {s' : RunState} {q : Quad} {rest : List Quad}
    (h : Entering clean s s' (q :: rest)) : ∃ s'', s'.release q = .ok s'' ∧ Entering clean s s'' rest := by
  obtain ⟨store, report, hrun, hstanding, hbase⟩ := h.standing.release
  have hframe : s'.Frame ⟨s'.engine, store, report⟩ := ⟨rfl, rfl, fun _ => rfl, hbase⟩
  exact ⟨_, hrun, hstanding, h.engine_eq, h.frame.trans hframe⟩

theorem finalize_spec (h : s.Standing clean [] [])
    (hzero : ∀ q ∈ s.engine.withdrawn, s.engine.support.total q = 0) :
    ∃ store report,
      s.finalize = .ok ⟨{ s.engine with withdrawn := ∅, deferred := ∅ }, store, report⟩ ∧
      Standing clean ⟨{ s.engine with withdrawn := ∅, deferred := ∅ }, store, report⟩ [] [] ∧
      s.Frame ⟨{ s.engine with withdrawn := ∅, deferred := ∅ }, store, report⟩ := by
  obtain ⟨store, report, hretract, hstanding, hframe⟩ := retractAll_spec h hzero
  obtain ⟨s', hrelease, hstanding', hengine, hframe'⟩ :=
    Result.foldlM_ok (Entering clean s) (fun _ _ _ => Entering.step) ⟨hstanding, rfl, hframe⟩
  obtain ⟨e, store', report'⟩ := s'
  obtain rfl : e = { s.engine with withdrawn := ∅, deferred := ∅ } := hengine
  refine ⟨store', report', ?_, hstanding', hframe'⟩
  unfold finalize
  simp only
  rw [hretract]
  exact hrelease

/-! ## The next round -/

/-- What is decided between two rounds: to stop, or to carry out a round that is called for. -/
def Decided (clean : Prop) (s : RunState) : Option (Round × Progress) → Prop
  | none => s.Upholds clean .idle ∧ s.engine.IsQuiet s.store
  | some (round, progress) => s.Standing clean [] [] ∧ s.Ready round progress

theorem takeChanges_spec (h : s.Standing clean [] []) :
    s.takeChanges.Standing clean [] [] ∧ s.Frame s.takeChanges := by
  unfold takeChanges
  by_cases hpending : s.engine.pending = []
  · rw [if_pos (List.isEmpty_iff.2 hpending)]
    obtain ⟨hqueue, hledger⟩ := h.ledger.drain hpending
    exact ⟨⟨hledger, fun hc => (h.grounded hc).drain rfl hqueue⟩,
      ⟨rfl, rfl, fun _ => rfl, fun _ _ => Iff.rfl⟩⟩
  · rw [if_neg (by rwa [List.isEmpty_iff])]
    exact ⟨h, .refl s⟩

private theorem frame_nextSuspect (s : RunState) : s.Frame s.nextSuspect.2 :=
  ⟨rfl, rfl, fun _ => rfl, fun _ _ => Iff.rfl⟩

theorem isQuiet_of_nextOutside (h : s.nextOutside = (s', none))
    (hidle : s.engine.isRederiving = false) : s'.engine.IsQuiet s'.store := by
  obtain ⟨hwithdrawn, hdeferred⟩ := isRederiving_eq_false_iff.1 hidle
  cases nextOutside_eq_iff.1 h with
  | stop hpending hnone =>
      constructor
      · exact takeChanges_queue_eq hpending
      · exact nextSuspect_eq_none hnone
      · rw [← hwithdrawn]
        exact s.withdrawn_takeChanges
      · rw [← hdeferred]
        exact s.deferred_takeChanges

private theorem nextOutside_spec {step : Option (Round × Progress)} (h : s.Standing clean [] [])
    (hidle : s.engine.isRederiving = false) (hnext : s.nextOutside = (s', step)) :
    s'.Decided clean step ∧ s.Frame s' := by
  obtain ⟨hs, hframe⟩ := takeChanges_spec h
  cases nextOutside_eq_iff.1 hnext with
  | propagate => exact ⟨⟨hs, ready_of_nextOutside hidle hnext⟩, hframe⟩
  | withdraw =>
      have hready := ready_of_nextOutside hidle hnext
      exact ⟨⟨hs.nextSuspect, hready⟩, hframe.trans (frame_nextSuspect _)⟩
  | stop =>
      have hquiet := isQuiet_of_nextOutside hnext hidle
      exact ⟨⟨.of_idle hs.nextSuspect, hquiet⟩, hframe.trans (frame_nextSuspect _)⟩

theorem nextInPass_spec {step : Option (Round × Progress)} (h : s.Standing clean [] [])
    (hnext : s.nextInPass progress = (s', step)) : s'.Standing clean [] [] ∧ s.Frame s' :=
  nextInPass_inv (P := fun s' => s'.Standing clean [] [] ∧ s.Frame s')
    (fun _ hs => ⟨hs.1.nextSuspect, hs.2.trans (frame_nextSuspect _)⟩) ⟨h, .refl s⟩ hnext

theorem next_spec (h : s.Upholds clean progress) :
    ∃ s' step, s.next progress = .ok (s', step) ∧ s'.Decided clean step ∧ s.Frame s' := by
  have hend : ∀ {s₁ : RunState}, s.nextInPass progress = (s₁, none) → ∃ last,
      s₁.finalize = .ok last ∧ last.Standing clean [] [] ∧ last.engine.isRederiving = false ∧
        s.Frame last := by
    intro s₁ hnext
    obtain ⟨hstanding, hframe⟩ := nextInPass_spec h.standing hnext
    obtain ⟨store, report, hfinalize, hlast, hframe'⟩ :=
      finalize_spec hstanding (nextInPass_eq_none hnext)
    exact ⟨_, hfinalize, hlast, rfl, hframe.trans hframe'⟩
  obtain ⟨s', step, hchooses⟩ := exists_chooses s progress fun _ hnext =>
    (hend hnext).imp fun _ hlast => hlast.1
  refine ⟨s', step, next_eq_ok_iff.2 hchooses, ?_⟩
  cases hchooses with
  | outside hidle hnext => exact nextOutside_spec h.standing hidle.2 hnext
  | inPass _ hnext =>
      obtain ⟨hstanding, hframe⟩ := nextInPass_spec h.standing hnext
      exact ⟨⟨hstanding, ready_of_nextInPass h.todo hnext⟩, hframe⟩
  | finish _ hnext hfinalize hlast =>
      obtain ⟨last, hlast', hstanding, hidle, hframe⟩ := hend hnext
      obtain rfl := Result.eq_of_eq_ok hlast' hfinalize
      obtain ⟨hdecided, hframe'⟩ := nextOutside_spec hstanding hidle hlast
      exact ⟨hdecided, hframe.trans hframe'⟩

/-! ## All rounds -/

private theorem isSteady_perform {rounds : Nat} {round : Round} {progress' : Progress}
    (h : s.isSteady progress (rounds + 1) = true)
    (hnext : s.next progress = .ok (s', some (round, progress'))) :
    (∀ q, round = .reinstate q → 0 < s'.engine.support.total q) ∧
      ∀ s₂, s'.perform round = .ok s₂ → s₂.isSteady progress' rounds = true := by
  rw [isSteady, hnext, Bool.and_eq_true] at h
  refine ⟨?_, fun s₂ hs₂ => ?_⟩
  · rintro q rfl
    exact of_decide_eq_true h.1
  · have hrest := h.2
    rw [hs₂] at hrest
    exact hrest

/-- A run within `rounds` rounds ends quiet, or cut short by the limit. -/
theorem run_spec {rounds : Nat} (h : s.Upholds clean progress)
    (hsteady : clean → s.isSteady progress rounds = true) :
    (∃ s', s.run progress rounds = .ok s' ∧ s'.Upholds clean .idle ∧
      s'.engine.IsQuiet s'.store ∧ s.Frame s') ∨
    ∃ s' activity, s.run progress rounds =
        .error ⟨.error (.roundsExceeded s.engine.config.maxRounds (some activity)), s'⟩ ∧
      s'.Upholds clean .idle ∧ s.Frame s' := by
  induction rounds generalizing s progress with
  | zero =>
      obtain ⟨s₁, step, hnext, hdecided, hframe⟩ := next_spec h
      unfold run
      rw [hnext, Result.ok_bind]
      cases step with
      | none => exact Or.inl ⟨s₁, rfl, hdecided.1, hdecided.2, hframe⟩
      | some step =>
          obtain ⟨round, progress'⟩ := step
          refine Or.inr ⟨s₁, round.activity, ?_, .of_idle hdecided.1, hframe⟩
          rw [← hframe.config_eq]
          rfl
  | succ rounds ih =>
      obtain ⟨s₁, step, hnext, hdecided, hframe⟩ := next_spec h
      unfold run
      rw [hnext, Result.ok_bind]
      cases step with
      | none => exact Or.inl ⟨s₁, rfl, hdecided.1, hdecided.2, hframe⟩
      | some step =>
          obtain ⟨round, progress'⟩ := step
          obtain ⟨s₂, hperform, hupholds, hframe₂⟩ := perform_spec hdecided.1 hdecided.2 fun hc =>
            (isSteady_perform (hsteady hc) hnext).1
          simp only [hperform, Result.ok_bind]
          have hmax : s₂.engine.config.maxRounds = s.engine.config.maxRounds := by
            rw [hframe₂.config_eq, hframe.config_eq]
          rcases ih hupholds fun hc => (isSteady_perform (hsteady hc) hnext).2 s₂ hperform with
            ⟨s', hrun, hup, hquiet, hframe'⟩ | ⟨s', activity, hrun, hup, hframe'⟩
          · exact Or.inl ⟨s', hrun, hup, hquiet, hframe.trans (hframe₂.trans hframe')⟩
          · refine Or.inr ⟨s', activity, ?_, hup, hframe.trans (hframe₂.trans hframe')⟩
            rw [hrun, hmax]

end RunState

end Entail
