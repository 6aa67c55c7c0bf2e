import Entail.Proofs.Rules.Grounds
/-!
# Settling

Acting on the changes of support keeps the ledger and the grounds. Supported quads come to be stored
or deferred; quads that lost a support come to be suspects, or leave the store.
-/

namespace Entail.RunState

open RuleEngine

variable {clean : Prop} {s s' : RunState} {phase : Phase} {q : Quad} {raised lowered : List Quad}

/-- The state of a run, with quads that came to be supported and quads that lost a support still to be
dealt with. -/
structure Standing (clean : Prop) (s : RunState) (raised lowered : List Quad) : Prop where
  ledger : s.engine.Ledger clean s.store (· ∈ s.engine.withdrawn)
    (fun q => q ∈ s.engine.deferred ∨ q ∈ raised) fun q => q ∈ s.engine.suspects ∨ q ∈ lowered
  grounded : clean → s.engine.AllGrounded s.store (· ∈ s.engine.withdrawn)
    fun q => q ∈ s.engine.suspects ∨ q ∈ lowered

/-- Quads may move between what the engine has noted and what is still to be dealt with. -/
theorem Standing.regroup {raised' lowered' : List Quad} (h : s.Standing clean raised lowered)
    (suspects deferred : OrderedSet Quad)
    (hraised : ∀ x, x ∈ s.engine.deferred ∨ x ∈ raised →
      (x ∈ deferred ∨ x ∈ raised') ∨ s.store.contents.Has x ∨ s.engine.support.total x = 0)
    (hfewer : ∀ x, x ∈ suspects ∨ x ∈ lowered' → x ∈ s.engine.suspects ∨ x ∈ lowered)
    (hdoubted : ∀ x, x ∈ s.engine.suspects ∨ x ∈ lowered →
      (x ∈ suspects ∨ x ∈ lowered') ∨ x ∈ s.engine.withdrawn ∨ ¬ s.store.contents.Has x) :
    Standing clean { s with engine := { s.engine with suspects, deferred } } raised' lowered' where
  ledger := (h.ledger.relabel _ _ _).mono (fun _ => Iff.rfl) hraised hfewer
  grounded hc := ((h.grounded hc).relabel _ _ _ _).mono (fun _ => Iff.rfl) hdoubted

/-- What settling leaves alone. -/
structure Settles (phase : Phase) (s s' : RunState) : Prop where
  config_eq : s'.engine.config = s.engine.config
  evaluator_eq : s'.engine.evaluator = s.engine.evaluator
  subscription_eq : s'.engine.subscription = s.engine.subscription
  slots_eq : s'.engine.slots = s.engine.slots
  support_eq : s'.engine.support = s.engine.support
  pending_eq : s'.engine.pending = s.engine.pending
  withdrawn_eq : s'.engine.withdrawn = s.engine.withdrawn
  deferred_eq : phase = .outside → s'.engine.deferred = s.engine.deferred
  store_eq : phase = .withdrawing → s'.store = s.store
  base_iff : ∀ x, x.graph ≠ s.engine.graph →
    (s'.store.contents.Has x ↔ s.store.contents.Has x)

theorem Settles.refl (phase : Phase) (s : RunState) : s.Settles phase s :=
  ⟨rfl, rfl, rfl, rfl, rfl, rfl, rfl, fun _ => rfl, fun _ => rfl, fun _ _ => Iff.rfl⟩

theorem Settles.graph_eq (h : s.Settles phase s') : s'.engine.graph = s.engine.graph := by
  rw [graph, graph, h.config_eq]

theorem Settles.trans {s'' : RunState} (h : s.Settles phase s') (h' : s'.Settles phase s'') :
    s.Settles phase s'' where
  config_eq := h'.config_eq.trans h.config_eq
  evaluator_eq := h'.evaluator_eq.trans h.evaluator_eq
  subscription_eq := h'.subscription_eq.trans h.subscription_eq
  slots_eq := h'.slots_eq.trans h.slots_eq
  support_eq := h'.support_eq.trans h.support_eq
  pending_eq := h'.pending_eq.trans h.pending_eq
  withdrawn_eq := h'.withdrawn_eq.trans h.withdrawn_eq
  deferred_eq hp := (h'.deferred_eq hp).trans (h.deferred_eq hp)
  store_eq hp := (h'.store_eq hp).trans (h.store_eq hp)
  base_iff x hx := (h'.base_iff x (h.graph_eq ▸ hx)).trans (h.base_iff x hx)

/-! ## Storing and removing one quad -/

theorem release_spec (hvalid : 0 < s.engine.support.total q → q.validate = .ok ()) :
    ∃ store report, s.release q = .ok { s with store, report } ∧
      (store = s.store ∧ (s.engine.support.total q = 0 ∨ s.store.contents.Has q) ∨
        0 < s.engine.support.total q ∧ ¬ s.store.contents.Has q ∧
          store = s.store.take (.gained q)) := by
  unfold release
  by_cases hpos : 0 < s.engine.support.total q
  · rw [if_pos hpos, materialize, Store.insert_of_valid (hvalid hpos)]
    by_cases hq : s.store.contents.Has q
    · rw [Store.insertValid_of_has hq]
      exact ⟨_, _, rfl, Or.inl ⟨rfl, Or.inr hq⟩⟩
    · rw [Store.insertValid_of_not_has hq]
      exact ⟨_, _, rfl, Or.inr ⟨hpos, hq, rfl⟩⟩
  · rw [if_neg hpos]
    exact ⟨s.store, s.report, rfl, Or.inl ⟨rfl, Or.inl (by omega)⟩⟩

theorem retract_spec (s : RunState) (q : Quad) :
    ∃ store report, s.retract q = { s with store, report } ∧
      (store = s.store ∧ ¬ s.store.contents.Has q ∨
        s.store.contents.Has q ∧ store = s.store.take (.lost q)) := by
  unfold retract
  by_cases hq : s.store.contents.Has q
  · rw [Store.remove_of_has hq]
    exact ⟨_, _, rfl, Or.inr ⟨hq, rfl⟩⟩
  · rw [Store.remove_of_not_has hq]
    exact ⟨_, _, rfl, Or.inl ⟨rfl, hq⟩⟩

theorem release_cases (h : s.release q = .ok s') :
    s' = s ∧ (0 < s.engine.support.total q → s.store.contents.Has q) ∨
      0 < s.engine.support.total q ∧ ¬ s.store.contents.Has q ∧
        s' = { s with
          store := s.store.take (.gained q)
          report := { s.report with materialized := s.report.materialized + 1 } } := by
  unfold release at h
  split at h
  · rename_i hpos
    unfold materialize Store.insert at h
    cases hvalid : q.validate with
    | error e =>
        rw [hvalid] at h
        cases h
    | ok u =>
        rw [hvalid] at h
        by_cases hq : s.store.contents.Has q
        · simp only [Store.insertValid_of_has hq] at h
          cases h
          exact Or.inl ⟨rfl, fun _ => hq⟩
        · simp only [Store.insertValid_of_not_has hq] at h
          cases h
          exact Or.inr ⟨hpos, hq, rfl⟩
  · rename_i hnot
    cases h
    exact Or.inl ⟨rfl, fun hpos => absurd hpos hnot⟩

theorem retract_cases (s : RunState) (q : Quad) :
    s.retract q = s ∧ ¬ s.store.contents.Has q ∨
      s.store.contents.Has q ∧
        s.retract q = { s with
          store := s.store.take (.lost q)
          report := { s.report with retracted := s.report.retracted + 1 } } := by
  unfold retract
  by_cases hq : s.store.contents.Has q
  · rw [Store.remove_of_has hq]
    exact Or.inr ⟨hq, rfl⟩
  · rw [Store.remove_of_not_has hq]
    exact Or.inl ⟨rfl, hq⟩

/-! ## One quad that came to be supported -/

theorem Standing.release (h : s.Standing clean (q :: raised) lowered) :
    ∃ store report, s.release q = .ok { s with store, report } ∧
      Standing clean { s with store, report } raised lowered ∧
      ∀ x, x.graph ≠ s.engine.graph → (store.contents.Has x ↔ s.store.contents.Has x) := by
  obtain ⟨store, report, hrun, hcases⟩ :=
    release_spec fun hpos => (h.ledger.conclusion hpos).valid
  refine ⟨store, report, hrun, ?_⟩
  rcases hcases with ⟨rfl, hdone⟩ | ⟨hpos, hq, rfl⟩
  · have hraised : ∀ x, x ∈ s.engine.deferred ∨ x ∈ q :: raised →
        (x ∈ s.engine.deferred ∨ x ∈ raised) ∨ s.store.contents.Has x ∨
          s.engine.support.total x = 0 := by
      rintro x (hx | hx)
      · exact Or.inl (Or.inl hx)
      · rcases List.mem_cons.1 hx with rfl | hx
        · exact Or.inr hdone.symm
        · exact Or.inl (Or.inr hx)
    have hs := h.regroup s.engine.suspects s.engine.deferred hraised (fun _ => id) fun _ => Or.inl
    exact ⟨⟨hs.ledger, hs.grounded⟩, fun _ _ => Iff.rfl⟩
  · have hraised : ∀ x, x ∈ s.engine.deferred ∨ x ∈ q :: raised →
        (x ∈ s.engine.deferred ∨ x ∈ raised) ∨ x = q := by
      rintro x (hx | hx)
      · exact Or.inl (Or.inl hx)
      · rcases List.mem_cons.1 hx with hx | hx
        · exact Or.inr hx
        · exact Or.inl (Or.inr hx)
    have hgraph := (h.ledger.conclusion hpos).graph_eq
    refine ⟨⟨h.ledger.take_gained hq hraised, fun hc => ?_⟩, fun x hx => ?_⟩
    · exact (h.grounded hc).take_gained h.ledger hc hpos
    · refine Store.has_take_of_ne ?_
      rintro rfl
      exact hx hgraph

private theorem settleRaised_spec (h : s.Standing clean (q :: raised) lowered) (phase : Phase) :
    ∃ s', settleRaised phase s q = .ok s' ∧ s'.Standing clean raised lowered ∧
      s.Settles phase s' := by
  by_cases hp : phase = .outside
  · subst hp
    obtain ⟨store, report, hrun, hs, hbase⟩ := h.release
    exact ⟨_, hrun, hs, rfl, rfl, rfl, rfl, rfl, rfl, rfl, fun _ => rfl, nofun, hbase⟩
  · have hrun : settleRaised phase s q =
        .ok { s with engine := { s.engine with deferred := s.engine.deferred.insert q } } := by
      cases phase with
      | outside => exact absurd rfl hp
      | withdrawing => rfl
      | reinstating => rfl
    have hraised : ∀ x, x ∈ s.engine.deferred ∨ x ∈ q :: raised →
        (x ∈ s.engine.deferred.insert q ∨ x ∈ raised) ∨ s.store.contents.Has x ∨
          s.engine.support.total x = 0 := by
      intro x hx
      rw [OrderedSet.mem_insert]
      rcases hx with hx | hx
      · exact Or.inl (Or.inl (Or.inr hx))
      · rcases List.mem_cons.1 hx with rfl | hx
        · exact Or.inl (Or.inl (Or.inl rfl))
        · exact Or.inl (Or.inr hx)
    have hs := h.regroup s.engine.suspects (s.engine.deferred.insert q) hraised (fun _ => id)
      fun _ => Or.inl
    exact ⟨_, hrun, hs, rfl, rfl, rfl, rfl, rfl, rfl, rfl, fun hx => absurd hx hp, fun _ => rfl,
      fun _ _ => Iff.rfl⟩

/-! ## One quad that lost a support -/

private theorem Standing.suspect (h : s.Standing clean raised (q :: lowered)) :
    Standing clean { s with engine := { s.engine with suspects := s.engine.suspects.insert q } }
      raised lowered := by
  have hmem : ∀ x, (x ∈ s.engine.suspects ∨ x ∈ q :: lowered) ↔
      (x ∈ s.engine.suspects.insert q ∨ x ∈ lowered) := by
    intro x
    rw [List.mem_cons, OrderedSet.mem_insert, ← or_assoc, or_comm (b := x = q), eq_comm]
  exact h.regroup (s.engine.suspects.insert q) s.engine.deferred (fun _ => Or.inl)
    (fun x => (hmem x).2) fun x hx => Or.inl ((hmem x).1 hx)

private theorem Standing.clear (h : s.Standing clean raised (q :: lowered))
    (hout : q ∈ s.engine.withdrawn ∨ ¬ s.store.contents.Has q) (suspects : OrderedSet Quad)
    (hsuspects : ∀ x, x ≠ q → (x ∈ suspects ↔ x ∈ s.engine.suspects))
    (hsub : ∀ x ∈ suspects, x ∈ s.engine.suspects) :
    Standing clean { s with engine := { s.engine with suspects } } raised lowered := by
  refine h.regroup suspects s.engine.deferred (fun _ => Or.inl) (fun x hx => ?_) fun x hx => ?_
  · rcases hx with hx | hx
    · exact Or.inl (hsub x hx)
    · exact Or.inr (List.mem_cons_of_mem q hx)
  · by_cases heq : x = q
    · subst heq
      exact Or.inr hout
    · rw [List.mem_cons, or_iff_right heq, ← hsuspects x heq] at hx
      exact Or.inl hx

private theorem Standing.retract (h : s.Standing clean raised (q :: lowered))
    (hzero : s.engine.support.total q = 0) (hq : q ∉ s.engine.withdrawn)
    (suspects : OrderedSet Quad)
    (hsuspects : ∀ x, x ≠ q → (x ∈ suspects ↔ x ∈ s.engine.suspects))
    (hsub : ∀ x ∈ suspects, x ∈ s.engine.suspects) :
    Standing clean
      (RunState.retract { s with engine := { s.engine with suspects } } q) raised lowered := by
  obtain ⟨store, report, hrun, hcases⟩ :=
    retract_spec { s with engine := { s.engine with suspects } } q
  rw [hrun]
  rcases hcases with ⟨rfl, hnot⟩ | ⟨hhas, rfl⟩
  · have hclear := h.clear (Or.inr hnot) suspects hsuspects hsub
    exact ⟨hclear.ledger, hclear.grounded⟩
  · have hgone : Standing clean { s with store := s.store.take (.lost q), report } raised
        (q :: lowered) := by
      constructor
      · exact h.ledger.take_lost hzero (fun _ _ => Iff.rfl) hq
      · exact fun hc => (h.grounded hc).take_lost h.ledger fun _ _ => Iff.rfl
    have hnot : ¬ (s.store.take (.lost q)).contents.Has q := by
      intro hx
      rw [Store.has_take] at hx
      exact hx.2 rfl
    exact hgone.clear (Or.inr hnot) suspects hsuspects hsub

private theorem settleLowered_spec (h : s.Standing clean raised (q :: lowered)) (phase : Phase) :
    (settleLowered phase s q).Standing clean raised lowered ∧
      s.Settles phase (settleLowered phase s q) := by
  have herase : ∀ x, x ≠ q → (x ∈ s.engine.suspects.erase q ↔ x ∈ s.engine.suspects) := by
    intro x hx
    rw [OrderedSet.mem_erase, and_iff_right (Ne.symm hx)]
  have hsub : ∀ x ∈ s.engine.suspects.erase q, x ∈ s.engine.suspects :=
    fun x hx => (OrderedSet.mem_erase.1 hx).2
  by_cases hp : phase = .withdrawing
  · subst hp
    simp only [settleLowered]
    split
    · rename_i hq
      exact ⟨h.clear (Or.inl hq) _ (fun _ _ => Iff.rfl) fun _ => id, .refl _ _⟩
    · exact ⟨h.suspect, rfl, rfl, rfl, rfl, rfl, rfl, rfl, fun _ => rfl, fun _ => rfl,
        fun _ _ => Iff.rfl⟩
  · have hphase : settleLowered phase s q =
        if s.engine.support.total q = 0 then
          if q ∈ s.engine.withdrawn then
            { s with engine := { s.engine with suspects := s.engine.suspects.erase q } }
          else RunState.retract
            { s with engine := { s.engine with suspects := s.engine.suspects.erase q } } q
        else { s with engine := { s.engine with suspects := s.engine.suspects.insert q } } := by
      cases phase with
      | outside => rfl
      | withdrawing => exact absurd rfl hp
      | reinstating => rfl
    rw [hphase]
    by_cases hzero : s.engine.support.total q = 0
    · rw [if_pos hzero]
      by_cases hq : q ∈ s.engine.withdrawn
      · rw [if_pos hq]
        exact ⟨h.clear (Or.inl hq) _ herase hsub,
          rfl, rfl, rfl, rfl, rfl, rfl, rfl, fun _ => rfl, fun _ => rfl, fun _ _ => Iff.rfl⟩
      · rw [if_neg hq]
        refine ⟨h.retract hzero hq _ herase hsub, ?_⟩
        have hgraph := h.ledger.doubted_graph q (Or.inr List.mem_cons_self)
        obtain ⟨store, report, hrun, hcases⟩ := retract_spec
          { s with engine := { s.engine with suspects := s.engine.suspects.erase q } } q
        rw [hrun]
        have hbase : ∀ x, x.graph ≠ s.engine.graph →
            (store.contents.Has x ↔ s.store.contents.Has x) := by
          intro x hx
          rcases hcases with ⟨rfl, _⟩ | ⟨_, rfl⟩
          · exact Iff.rfl
          · refine Store.has_take_of_ne ?_
            rintro rfl
            exact hx hgraph
        exact ⟨rfl, rfl, rfl, rfl, rfl, rfl, rfl, fun _ => rfl, fun hx => absurd hx hp, hbase⟩
    · rw [if_neg hzero]
      exact ⟨h.suspect, rfl, rfl, rfl, rfl, rfl, rfl, rfl, fun _ => rfl, fun _ => rfl,
        fun _ _ => Iff.rfl⟩

/-! ## All of them -/

/-- The state once the changes of support were taken. -/
def taken (s : RunState) : RunState :=
  { s with engine := { s.engine with support := s.engine.support.settled } }

theorem settle_spec (phase : Phase)
    (h : s.taken.Standing clean s.engine.support.raised s.engine.support.lowered) :
    ∃ s', s.settle phase = .ok s' ∧ s'.Standing clean [] [] ∧ s.taken.Settles phase s' := by
  have hraise : ∀ s' q rest, s'.Standing clean (q :: rest) s.engine.support.lowered ∧
      s.taken.Settles phase s' → ∃ s'', settleRaised phase s' q = .ok s'' ∧
        s''.Standing clean rest s.engine.support.lowered ∧ s.taken.Settles phase s'' := by
    rintro s' q rest ⟨hstanding, hsettles⟩
    obtain ⟨s'', hrun, hs, hk⟩ := settleRaised_spec hstanding phase
    exact ⟨s'', hrun, hs, hsettles.trans hk⟩
  have hlower : ∀ s' q rest, s'.Standing clean [] (q :: rest) ∧ s.taken.Settles phase s' →
      (settleLowered phase s' q).Standing clean [] rest ∧
        s.taken.Settles phase (settleLowered phase s' q) := by
    rintro s' q rest ⟨hstanding, hsettles⟩
    obtain ⟨hs, hk⟩ := settleLowered_spec hstanding phase
    exact ⟨hs, hsettles.trans hk⟩
  obtain ⟨s₁, hraised, h₁⟩ := Result.foldlM_ok
    (fun s' rest => s'.Standing clean rest s.engine.support.lowered ∧ s.taken.Settles phase s')
    hraise ⟨h, .refl phase _⟩
  obtain ⟨hstanding₂, hsettles₂⟩ := Result.foldl_inv
    (fun s' rest => s'.Standing clean [] rest ∧ s.taken.Settles phase s') hlower h₁
  refine ⟨_, ?_, hstanding₂, hsettles₂⟩
  have hraised' : s.engine.support.raised.foldlM (settleRaised phase) s.taken = .ok s₁ := hraised
  unfold settle
  simp only
  rw [← taken, hraised', Result.ok_bind]
  rfl

/-! ## One action after the other -/

/-- From `s` some of the actions that settling is made of are taken, for quads that came to be supported
and quads that lost a support. -/
inductive Acts (phase : Phase) (raised lowered : List Quad) (s : RunState) : RunState → Prop where
  | refl : Acts phase raised lowered s s
  | suspect {s' : RunState} {q : Quad} {suspects : OrderedSet Quad} :
    Acts phase raised lowered s s' → q ∈ lowered →
    (∀ x ∈ suspects, x = q ∨ x ∈ s'.engine.suspects) →
    Acts phase raised lowered s { s' with engine := { s'.engine with suspects } }
  | holdBack {s' : RunState} {q : Quad} :
    Acts phase raised lowered s s' → q ∈ raised → phase ≠ .outside →
    Acts phase raised lowered s
      { s' with engine := { s'.engine with deferred := s'.engine.deferred.insert q } }
  | release {s' s'' : RunState} {q : Quad} :
    Acts phase raised lowered s s' → q ∈ raised → phase = .outside → s'.release q = .ok s'' →
    Acts phase raised lowered s s''
  | retract {s' : RunState} {q : Quad} :
    Acts phase raised lowered s s' → q ∈ lowered → phase ≠ .withdrawing →
    s'.engine.support.total q = 0 → Acts phase raised lowered s (s'.retract q)

namespace Acts

variable {s'' : RunState}

private theorem settleRaised (h : Acts phase raised lowered s s') (hq : q ∈ raised)
    (hrun : RunState.settleRaised phase s' q = .ok s'') : Acts phase raised lowered s s'' := by
  cases phase with
  | outside => exact h.release hq rfl hrun
  | withdrawing | reinstating =>
      cases hrun
      exact h.holdBack hq nofun

private theorem settleLowered (h : Acts phase raised lowered s s') (hq : q ∈ lowered) :
    Acts phase raised lowered s (RunState.settleLowered phase s' q) := by
  have hinsert : Acts phase raised lowered s
      { s' with engine := { s'.engine with suspects := s'.engine.suspects.insert q } } :=
    h.suspect hq fun x hx => (OrderedSet.mem_insert.1 hx).imp_left Eq.symm
  have herase : Acts phase raised lowered s
      { s' with engine := { s'.engine with suspects := s'.engine.suspects.erase q } } :=
    h.suspect hq fun x hx => Or.inr (OrderedSet.mem_erase.1 hx).2
  cases phase with
  | withdrawing =>
      simp only [RunState.settleLowered]
      split
      · exact h
      · exact hinsert
  | outside | reinstating =>
      simp only [RunState.settleLowered]
      split
      · rename_i hzero
        split
        · exact herase
        · exact herase.retract hq nofun hzero
      · exact hinsert

end Acts

theorem settle_acts (h : s.settle phase = .ok s') :
    Acts phase s.engine.support.raised s.engine.support.lowered s.taken s' := by
  unfold settle at h
  simp only at h
  obtain ⟨s₁, hraised, hlowered⟩ := Result.bind_eq_ok_iff.1 h
  have hraise : ∀ s' q rest s'', (∀ x ∈ q :: rest, x ∈ s.engine.support.raised) ∧
      Acts phase s.engine.support.raised s.engine.support.lowered s.taken s' →
      RunState.settleRaised phase s' q = .ok s'' → (∀ x ∈ rest, x ∈ s.engine.support.raised) ∧
      Acts phase s.engine.support.raised s.engine.support.lowered s.taken s'' := by
    rintro s' q rest s'' ⟨hmem, hacts⟩ hrun
    obtain ⟨hq, hrest⟩ := List.forall_mem_cons.1 hmem
    exact ⟨hrest, hacts.settleRaised hq hrun⟩
  have hlower : ∀ s' q rest, (∀ x ∈ q :: rest, x ∈ s.engine.support.lowered) ∧
      Acts phase s.engine.support.raised s.engine.support.lowered s.taken s' →
      (∀ x ∈ rest, x ∈ s.engine.support.lowered) ∧
      Acts phase s.engine.support.raised s.engine.support.lowered s.taken
        (RunState.settleLowered phase s' q) := by
    rintro s' q rest ⟨hmem, hacts⟩
    obtain ⟨hq, hrest⟩ := List.forall_mem_cons.1 hmem
    exact ⟨hrest, hacts.settleLowered hq⟩
  obtain ⟨_, h₁⟩ := Result.foldlM_inv
    (fun s' rest => (∀ q ∈ rest, q ∈ s.engine.support.raised) ∧
      Acts phase s.engine.support.raised s.engine.support.lowered s.taken s')
    hraise ⟨fun _ => id, .refl⟩ hraised
  obtain ⟨_, h₂⟩ := Result.foldl_inv
    (fun s' rest => (∀ q ∈ rest, q ∈ s.engine.support.lowered) ∧
      Acts phase s.engine.support.raised s.engine.support.lowered s.taken s')
    hlower ⟨fun _ => id, h₁⟩
  cases hlowered
  exact h₂

end Entail.RunState
