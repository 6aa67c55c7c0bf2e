import Entail.Proofs.Rules.Positive
import Entail.Proofs.Store.Published
/-!
# Effects

What a round makes of the store, of the suspects and of the quads held back. Only quads that came to
be concluded are gained, and only outside a pass; only quads that lost a support are lost.
-/

namespace Entail.RunState

open RuleEngine

variable {s s' s'' : RunState} {q : Quad} {phase : Phase} {raised lowered : List Quad}
  {round : Round} {progress : Progress}

/-! ## Settling -/

/-- What settling does for quads that came to be supported and quads that lost a support. -/
structure Effects (phase : Phase) (raised lowered : List Quad) (s s' : RunState) : Prop where
  publishes : Publishes (fun c => (phase = .outside ∧ ∃ q ∈ raised, c = .gained q) ∨
    (phase ≠ .withdrawing ∧ ∃ q ∈ lowered, c = .lost q)) s.store s'.store
  deferred_from : ∀ q ∈ s'.engine.deferred, q ∈ s.engine.deferred ∨ q ∈ raised
  suspects_eq : lowered = [] → s'.engine.suspects = s.engine.suspects

theorem Effects.refl (phase : Phase) (raised lowered : List Quad) (s : RunState) :
    s.Effects phase raised lowered s :=
  ⟨.refl _, fun _ => Or.inl, fun _ => rfl⟩

theorem Effects.trans (h : s.Effects phase raised lowered s')
    (h' : s'.Effects phase raised lowered s'') : s.Effects phase raised lowered s'' where
  publishes := h.publishes.trans h'.publishes
  deferred_from q hq := by
    rcases h'.deferred_from q hq with hq | hq
    · exact h.deferred_from q hq
    · exact Or.inr hq
  suspects_eq hnone := by
    rw [h'.suspects_eq hnone]
    exact h.suspects_eq hnone

theorem Effects.of_publishes
    (hpublishes : Publishes (fun c => (phase = .outside ∧ ∃ q ∈ raised, c = .gained q) ∨
      (phase ≠ .withdrawing ∧ ∃ q ∈ lowered, c = .lost q)) s.store s'.store)
    (hengine : s'.engine = s.engine) : s.Effects phase raised lowered s' := by
  refine ⟨hpublishes, fun q hq => ?_, fun _ => ?_⟩
  · rw [hengine] at hq
    exact Or.inl hq
  · rw [hengine]

private theorem Acts.effects (h : Acts phase raised lowered s s') :
    s.Effects phase raised lowered s' := by
  induction h with
  | refl => exact .refl _ _ _ _
  | suspect _ hq _ ih =>
      refine ih.trans ⟨.refl _, fun _ => Or.inl, fun hnone => ?_⟩
      exact absurd hnone (List.ne_nil_of_mem hq)
  | @holdBack s₁ q _ hq _ ih =>
      refine ih.trans ⟨.refl _, fun x hx => ?_, fun _ => rfl⟩
      rcases OrderedSet.mem_insert.1 hx with rfl | hx
      · exact Or.inr hq
      · exact Or.inl hx
  | @release _ _ q _ hq hphase hrelease ih =>
      rcases release_cases hrelease with ⟨rfl, _⟩ | ⟨_, hnot, rfl⟩
      · exact ih
      · refine ih.trans (.of_publishes (.take (.refl _) ?_ hnot) rfl)
        exact Or.inl ⟨hphase, q, hq, rfl⟩
  | @retract s₁ q _ hq hphase _ ih =>
      rcases retract_cases s₁ q with ⟨heq, _⟩ | ⟨hhas, heq⟩
      · rw [heq]
        exact ih
      · rw [heq]
        refine ih.trans (.of_publishes (.take (.refl _) ?_ hhas) rfl)
        exact Or.inr ⟨hphase, q, hq, rfl⟩

theorem settle_effects (h : s.settle phase = .ok s') :
    s.taken.Effects phase s.engine.support.raised s.engine.support.lowered s' :=
  (settle_acts h).effects

/-! ## A round -/

/-- The round makes a rule conclude the quad from a match that it did not have. -/
def Raises (s : RunState) (round : Round) (q : Quad) : Prop :=
  ∃ r t, s.engine.Appears round.change
      (fun _ => s.engine.Sees False s.store (· ∈ s.engine.withdrawn)) r t ∧
    r.Concludes s.engine.evaluator s.engine.graph t q

/-- The round takes from a rule a match that it concludes the quad from. -/
def Lowers (s : RunState) (round : Round) (q : Quad) : Prop :=
  ∃ r t, s.engine.Vanishes round.change
      (fun _ => s.engine.Sees False s.store (· ∈ s.engine.withdrawn)) r t ∧
    r.Concludes s.engine.evaluator s.engine.graph t q

/-- What a round publishes. -/
def Allows (s : RunState) (round : Round) (c : Change Quad) : Prop :=
  (round.phase = .outside ∧ ∃ q, s.Raises round q ∧ c = .gained q) ∨
    (round.phase ≠ .withdrawing ∧ ∃ q, s.Lowers round q ∧ c = .lost q)

/-- What a round makes of the state. -/
structure Performs (s : RunState) (round : Round) (s' : RunState) : Prop where
  publishes : Publishes (s.Allows round) s.store s'.store
  pending_eq : s'.engine.pending = (s.start round).engine.pending
  subscription_eq : s'.engine.subscription = s.engine.subscription
  withdrawn_eq : s'.engine.withdrawn = (s.start round).engine.withdrawn
  deferred_eq : round.phase = .outside → s'.engine.deferred = s.engine.deferred
  deferred_from : ∀ q ∈ s'.engine.deferred, q ∈ s.engine.deferred ∨ s.Raises round q
  suspects_eq : (∀ q, ¬ s.Lowers round q) →
    s'.engine.suspects = (s.start round).engine.suspects

theorem performs_spec (h : s.Standing False [] []) (hready : s.Ready round progress) :
    ∃ s', s.perform round = .ok s' ∧ s.Performs round s' ∧ s'.Upholds False progress ∧
      s.Frame s' := by
  obtain ⟨s', hperform, hupholds, hframe⟩ := perform_spec h hready False.elim
  obtain ⟨s₁, hinject, htold⟩ := told_spec h hready False.elim
  refine ⟨s', hperform, ?_, hupholds, hframe⟩
  obtain ⟨s₂, hsettle, _, hsettles⟩ := settle_spec round.phase htold.standing
  have heq : s.perform round = .ok s₂ := by
    rw [perform, hinject, Result.ok_bind, hsettle]
  obtain rfl : s₂ = s' := Result.eq_of_eq_ok heq hperform
  have heffects := settle_effects hsettle
  have hraises : ∀ q ∈ s₁.engine.support.raised, s.Raises round q := by
    intro q hq
    rcases htold.evolves.raised_from q hq with hq | hraised
    · rw [h.ledger.raised_nil] at hq
      exact absurd hq List.not_mem_nil
    · exact hraised
  have hlowers : ∀ q ∈ s₁.engine.support.lowered, s.Lowers round q := by
    intro q hq
    rcases htold.evolves.lowered_from q hq with hq | hlowered
    · rw [h.ledger.lowered_nil] at hq
      exact absurd hq List.not_mem_nil
    · exact hlowered
  have hsame := htold.same
  have hstore : s₁.taken.store = s.store := htold.store_eq
  have hpublishes := heffects.publishes
  rw [hstore] at hpublishes
  refine ⟨hpublishes.mono fun c hc => ?_, ?_, ?_, ?_, fun hp => ?_, fun q hq => ?_,
    fun hnone => ?_⟩
  · rcases hc with ⟨hp, q, hq, rfl⟩ | ⟨hp, q, hq, rfl⟩
    · exact Or.inl ⟨hp, q, hraises q hq, rfl⟩
    · exact Or.inr ⟨hp, q, hlowers q hq, rfl⟩
  · rw [hsettles.pending_eq]
    exact hsame.pending_eq
  · rw [hsettles.subscription_eq, ← subscription_start s round]
    exact hsame.subscription_eq
  · rw [hsettles.withdrawn_eq]
    exact hsame.withdrawn_eq
  · rw [hsettles.deferred_eq hp, ← deferred_start s round]
    exact hsame.deferred_eq
  · rcases heffects.deferred_from q hq with hq | hq
    · have hq' : q ∈ s₁.engine.deferred := hq
      rw [hsame.deferred_eq, deferred_start] at hq'
      exact Or.inl hq'
    · exact Or.inr (hraises q hq)
  · have hlowered : s₁.engine.support.lowered = [] :=
      List.eq_nil_iff_forall_not_mem.2 fun q hq => hnone q (hlowers q hq)
    rw [heffects.suspects_eq hlowered]
    exact hsame.suspects_eq

/-- With positive rules a quad that comes takes no support away. -/
theorem not_lowers_of_gained (hpos : s.engine.IsPositive) (round : Round)
    (hround : round.change = .gained q) (x : Quad) : ¬ s.Lowers round x := by
  rintro ⟨r, t, hvanishes, _⟩
  rw [hround] at hvanishes
  exact hpos.not_vanishes hvanishes

theorem not_raises_of_lost (hpos : s.engine.IsPositive) (round : Round)
    (hround : round.change = .lost q) (x : Quad) : ¬ s.Raises round x := by
  rintro ⟨r, t, happears, _⟩
  rw [hround] at happears
  exact hpos.not_appears happears

/-! ## The end of a pass -/

/-- The state while the quads of `rest` are still to be taken out of the store. -/
private structure Retracts (e : RuleEngine) (σ : Store) (qs : List Quad) (s' : RunState)
    (rest : List Quad) : Prop where
  engine_eq : s'.engine = e
  subset : ∀ q ∈ rest, q ∈ qs
  publishes : Publishes (fun c => ∃ q ∈ qs, c = .lost q) σ s'.store
  has_iff : ∀ x, (s'.store.contents.Has x ∧ x ∉ rest) ↔ σ.contents.Has x ∧ x ∉ qs

private theorem Retracts.step {e : RuleEngine} {σ : Store} {qs rest : List Quad}
    (h : Retracts e σ qs s (q :: rest)) : Retracts e σ qs (s.retract q) rest := by
  obtain ⟨store, report, hrun, hstore⟩ := retract_spec s q
  have hfrom : Publishes (fun c => ∃ q ∈ qs, c = .lost q) σ store ∧
      ∀ x, store.contents.Has x ↔ s.store.contents.Has x ∧ x ≠ q := by
    rcases hstore with ⟨rfl, hnot⟩ | ⟨hq, rfl⟩
    · refine ⟨h.publishes, fun x => ⟨fun hx => ⟨hx, ?_⟩, And.left⟩⟩
      rintro rfl
      exact hnot hx
    · refine ⟨.take h.publishes ⟨q, h.subset q List.mem_cons_self, rfl⟩ hq, fun x => ?_⟩
      rw [Store.has_take]
      exact Iff.rfl
  rw [hrun]
  refine ⟨h.engine_eq, fun x hx => h.subset x (List.mem_cons_of_mem _ hx), hfrom.1, fun x => ?_⟩
  rw [hfrom.2, ← h.has_iff x, List.mem_cons, not_or, and_assoc]

theorem retractAll_effects (e : RuleEngine) (σ : Store) (report : FlushReport)
    (qs : List Quad) :
    ∃ store report', qs.foldl retract ⟨e, σ, report⟩ = ⟨e, store, report'⟩ ∧
      Publishes (fun c => ∃ q ∈ qs, c = .lost q) σ store ∧
      ∀ x, store.contents.Has x ↔ σ.contents.Has x ∧ x ∉ qs := by
  have hfirst : Retracts e σ qs ⟨e, σ, report⟩ qs :=
    ⟨rfl, fun _ => id, .refl _, fun _ => Iff.rfl⟩
  have hlast := Result.foldl_inv (Retracts e σ qs) (fun _ _ _ => Retracts.step) hfirst
  generalize qs.foldl retract ⟨e, σ, report⟩ = last at *
  obtain ⟨e', store, report'⟩ := last
  obtain ⟨rfl, _, hpublishes, hhas⟩ := hlast
  refine ⟨store, report', rfl, hpublishes, fun x => ?_⟩
  rw [← hhas x, and_iff_left List.not_mem_nil]

/-- If the quads held back are stored anyway, the end of a pass only takes the withdrawn ones out of
the store. -/
theorem finalize_effects (h : s.finalize = .ok s')
    (hzero : ∀ q ∈ s.engine.withdrawn, s.engine.support.total q = 0)
    (hdeferred : ∀ q ∈ s.engine.deferred, s.store.contents.Has q) :
    s'.engine = { s.engine with withdrawn := ∅, deferred := ∅ } ∧
      Publishes (fun c => ∃ q ∈ s.engine.withdrawn, c = .lost q) s.store s'.store ∧
      ∀ x, s'.store.contents.Has x ↔ s.store.contents.Has x ∧ x ∉ s.engine.withdrawn := by
  unfold finalize at h
  simp only at h
  obtain ⟨store, report, hrun, hpublishes, hhas⟩ :=
    retractAll_effects { s.engine with withdrawn := ∅, deferred := ∅ } s.store s.report
      s.engine.withdrawn.toList
  rw [hrun] at h
  have hlast := Result.foldlM_inv
    (fun (s' : RunState) rest => s'.engine = { s.engine with withdrawn := ∅, deferred := ∅ } ∧
      s'.store = store ∧ ∀ q ∈ rest, q ∈ s.engine.deferred)
    (fun s' q rest s'' hinv hstep => ?_)
    ⟨rfl, rfl, fun _ => OrderedSet.mem_toList_iff.1⟩ h
  · obtain ⟨hengine, hstore, _⟩ := hlast
    rw [hstore]
    refine ⟨hengine, hpublishes.mono fun c => ?_, fun x => ?_⟩
    · rintro ⟨q, hq, rfl⟩
      exact ⟨q, OrderedSet.mem_toList_iff.1 hq, rfl⟩
    · rw [hhas, OrderedSet.mem_toList_iff]
  · obtain ⟨hengine, rfl, hmem⟩ := hinv
    have hrest : ∀ x ∈ rest, x ∈ s.engine.deferred := fun x hx => hmem x (List.mem_cons_of_mem _ hx)
    rcases release_cases hstep with ⟨rfl, _⟩ | ⟨hpos, hnot, _⟩
    · exact ⟨hengine, rfl, hrest⟩
    · -- a supported quad was not withdrawn, so it is still there
      rw [hengine] at hpos
      have hpos' : 0 < s.engine.support.total q := hpos
      have hq := hdeferred q (hmem q List.mem_cons_self)
      refine absurd ((hhas q).2 ⟨hq, fun hw => ?_⟩) hnot
      rw [hzero q (OrderedSet.mem_toList_iff.1 hw)] at hpos'
      exact Nat.lt_irrefl 0 hpos'

end Entail.RunState
