import Entail.Proofs.Rules.Settle
/-!
# Rounds

One round of a run, from what calls for it to the state it leaves behind: the networks are told of a
change, and the changes of support are acted on.
-/

namespace Entail.RunState

open RuleEngine

variable {clean : Prop} {s s' : RunState} {round : Round} {progress : Progress}

/-- What a run leaves alone: the rules, what they are evaluated with, and the quads outside the graph
of the conclusions. -/
structure Frame (s s' : RunState) : Prop where
  config_eq : s'.engine.config = s.engine.config
  evaluator_eq : s'.engine.evaluator = s.engine.evaluator
  rule_eq : ∀ id, s'.engine.rule? id = s.engine.rule? id
  base_iff : ∀ x, x.graph ≠ s.engine.graph →
    (s'.store.contents.Has x ↔ s.store.contents.Has x)

theorem Frame.refl (s : RunState) : s.Frame s :=
  ⟨rfl, rfl, fun _ => rfl, fun _ _ => Iff.rfl⟩

theorem Frame.graph_eq (h : s.Frame s') : s'.engine.graph = s.engine.graph := by
  rw [graph, graph, h.config_eq]

theorem Frame.trans {s'' : RunState} (h : s.Frame s') (h' : s'.Frame s'') : s.Frame s'' :=
  ⟨h'.config_eq.trans h.config_eq, h'.evaluator_eq.trans h.evaluator_eq,
    fun id => (h'.rule_eq id).trans (h.rule_eq id),
    fun x hx => (h'.base_iff x (h.graph_eq ▸ hx)).trans (h.base_iff x hx)⟩

theorem Settles.frame {phase : Phase} (h : s.Settles phase s') : s.Frame s' :=
  ⟨h.config_eq, h.evaluator_eq, fun id => by rw [rule?, h.slots_eq]; rfl, h.base_iff⟩

/-- What has to hold for a round to be carried out, and how far the run has got with it. -/
inductive Ready (s : RunState) : Round → Progress → Prop where
  | propagate {c : Change Quad} {rest : List (Change Quad)} :
    s.engine.pending = c :: rest → s.engine.withdrawn = ∅ → s.engine.deferred = ∅ →
    Ready s (.propagate c) .idle
  | withdraw {q : Quad} :
    q ∈ s.engine.suspects → s.store.contents.Has q → q ∉ s.engine.withdrawn →
    Ready s (.withdraw q) .withdrawing
  | reinstate {q : Quad} {todo : List Quad} :
    (q :: todo).Nodup → (∀ x ∈ q :: todo, x ∈ s.engine.withdrawn) →
    Ready s (.reinstate q) (.reinstating todo)

/-- What is to be reinstated next is withdrawn. -/
def IsDue (s : RunState) (progress : Progress) : Prop :=
  ∀ todo, progress = .reinstating todo → todo.Nodup ∧ ∀ q ∈ todo, q ∈ s.engine.withdrawn

theorem isDue_idle (s : RunState) : s.IsDue .idle := fun _ hidle => by cases hidle

theorem Ready.isDue (h : s.Ready round progress)
    (hwithdrawn : s'.engine.withdrawn = (s.start round).engine.withdrawn) : s'.IsDue progress := by
  intro todo heq
  subst heq
  cases h with
  | reinstate hnodup hmem =>
      obtain ⟨hq, hnodup'⟩ := List.nodup_cons.1 hnodup
      refine ⟨hnodup', fun x hx => ?_⟩
      rw [hwithdrawn]
      refine OrderedSet.mem_erase.2 ⟨?_, hmem x (List.mem_cons_of_mem _ hx)⟩
      rintro rfl
      exact hq hx

/-- The state between two rounds. -/
structure Upholds (clean : Prop) (s : RunState) (progress : Progress) : Prop where
  standing : s.Standing clean [] []
  todo : ∀ todo, progress = .reinstating todo →
    todo.Nodup ∧ ∀ q ∈ todo, q ∈ s.engine.withdrawn

theorem Upholds.of_idle (h : s.Standing clean [] []) : s.Upholds clean .idle where
  standing := h
  todo := nofun

/-! ## The start of a round

It moves the subject of the round, and leaves everything else alone.
-/

section

variable (s) (round)

@[simp] theorem config_start : (s.start round).engine.config = s.engine.config := by
  cases round <;> rfl

@[simp] theorem evaluator_start : (s.start round).engine.evaluator = s.engine.evaluator := by
  cases round <;> rfl

@[simp] theorem subscription_start :
    (s.start round).engine.subscription = s.engine.subscription := by
  cases round <;> rfl

@[simp] theorem slots_start : (s.start round).engine.slots = s.engine.slots := by
  cases round <;> rfl

@[simp] theorem support_start : (s.start round).engine.support = s.engine.support := by
  cases round <;> rfl

@[simp] theorem deferred_start : (s.start round).engine.deferred = s.engine.deferred := by
  cases round <;> rfl

@[simp] theorem store_start : (s.start round).store = s.store := by
  cases round <;> rfl

@[simp] theorem failures_start : (s.start round).report.failures = s.report.failures := by
  cases round <;> rfl

theorem graph_start : (s.start round).engine.graph = s.engine.graph := by
  rw [graph, graph, config_start]

theorem rule?_start (id : String) : (s.start round).engine.rule? id = s.engine.rule? id := by
  rw [rule?, rule?, slots_start]

theorem tracks_start {seen : String → (Quad → Prop) → Prop} (h : s.engine.Tracks seen) :
    (s.start round).engine.Tracks seen := by
  cases round with
  | propagate c | withdraw q | reinstate q => exact ⟨h.named, h.slots, h.accounts⟩

end

/-! ## Telling the networks -/

/-- What the networks make of a change, while the engine moves a quad about. -/
structure Told (clean : Prop) (s s₁ : RunState) (c : Change Quad) (s' : RunState) : Prop where
  store_eq : s'.store = s.store
  same : s₁.engine.SameBut s'.engine
  rule_eq : ∀ id, s'.engine.rule? id = s.engine.rule? id
  evolves : s.engine.Evolves s'.engine
    (s.engine.Appears c fun _ => s.engine.Sees clean s.store (· ∈ s.engine.withdrawn))
    (s.engine.Vanishes c fun _ => s.engine.Sees clean s.store (· ∈ s.engine.withdrawn))
  standing : s'.taken.Standing clean s'.engine.support.raised s'.engine.support.lowered

/-- How the engine may move a quad about when it tells the networks of a change. -/
private structure Rearranges (clean : Prop) (s : RunState) (c : Change Quad)
    (pending : List (Change Quad)) (suspects withdrawn : OrderedSet Quad) : Prop where
  queue : pending = s.engine.pending ∨ s.engine.pending = c :: pending
  sees : ∀ held, s.engine.Sees clean s.store (· ∈ s.engine.withdrawn) held →
    Sees clean { s.engine with pending } s.store (· ∈ withdrawn) (c.step held)
  stored : ∀ q ∈ withdrawn, s.store.contents.Has q ∧ q.graph = s.engine.graph
  kept : ∀ q ∈ s.engine.suspects, q ∈ suspects ∨ q ∈ withdrawn
  suspected : ∀ q ∈ suspects, q ∈ s.engine.suspects
  grounded : clean → ∃ hidden, s.engine.AllGrounded s.store hidden (· ∈ s.engine.suspects) ∧
    (∀ q, hidden q → q ∈ withdrawn) ∧ ∀ q ∈ withdrawn, hidden q ∨ c = .lost q

private theorem inject_spec (h : s.Standing clean [] []) {s₁ : RunState} {c : Change Quad}
    {pending : List (Change Quad)} {suspects withdrawn : OrderedSet Quad} {report : FlushReport}
    (hmoves : s.Rearranges clean c pending suspects withdrawn)
    (hs₁ : s₁ = ⟨{ s.engine with pending, suspects, withdrawn }, s.store, report⟩) :
    ∃ s', s₁.inject c = .ok s' ∧ s.Told clean s₁ c s' := by
  subst hs₁
  obtain ⟨hqueue, hsees, hstored, hsuspects, hsub, hgrounded⟩ := hmoves
  have hcurrent : ∃ past, ∀ q, Change.stepAll (pending ++ s.store.feed.waiting s.engine.subscription)
      past q ↔ s.store.contents.Has q := by
    obtain ⟨past, hpast⟩ := h.ledger.current
    unfold queue at hpast
    rcases hqueue with rfl | hcons
    · exact ⟨past, hpast⟩
    · rw [hcons] at hpast
      exact ⟨c.step past, hpast⟩
  obtain ⟨failures, e', hrun, hsame, hrule, hev, htracks, hledger⟩ :=
    h.ledger.told c pending suspects withdrawn s.engine.deferred hcurrent hsees
      (fun q hq => (hstored q hq).1) fun q hq => (hstored q hq).2
  have hwithdrawn_eq : e'.withdrawn = withdrawn := hsame.withdrawn_eq
  have hsuspects_eq : e'.suspects = suspects := hsame.suspects_eq
  have hdeferred_eq : e'.deferred = s.engine.deferred := hsame.deferred_eq
  refine ⟨⟨e', s.store, { report with failures := report.failures ++ failures }⟩, ?_, rfl, hsame,
    hrule, hev, ?_, fun hc => ?_⟩
  · unfold inject attempt
    simp only [hrun]
    rfl
  · refine hledger.mono (fun q => ?_) (fun q hq => ?_) fun q hq => ?_
    · change q ∈ withdrawn ↔ q ∈ e'.withdrawn
      rw [hwithdrawn_eq]
    · left
      change q ∈ e'.deferred ∨ q ∈ e'.support.raised
      rw [hdeferred_eq]
      rcases hq with hq | hq
      · exact Or.inl (hq.resolve_right List.not_mem_nil)
      · exact Or.inr hq
    · have hq' : q ∈ e'.suspects ∨ q ∈ e'.support.lowered := hq
      rw [hsuspects_eq] at hq'
      rcases hq' with hq' | hq'
      · exact Or.inl (Or.inl (hsub q hq'))
      · exact Or.inr hq'
  · obtain ⟨hidden, hall, hkept, hview⟩ := hgrounded hc
    have hlost : ∀ f, .lost f ∈ s.engine.queue s.store →
        .lost f ∈ e'.queue s.store ∨ c = .lost f := by
      intro f hf
      have hqueue' : e'.queue s.store =
          pending ++ s.store.feed.waiting s.engine.subscription := by
        rw [queue, hsame.pending_eq, hsame.subscription_eq]
      rw [hqueue']
      rw [queue] at hf
      rcases hqueue with rfl | hcons
      · exact Or.inl hf
      · rw [hcons] at hf
        rcases List.mem_cons.1 hf with heq | hf
        · exact Or.inr heq.symm
        · exact Or.inl hf
    have htold := hall.told (· ∈ withdrawn) ⟨hsame.graph_eq.symm, hsame.evaluator_eq.symm⟩ hev
      htracks hkept hview hlost
    refine (htold.relabel e'.support.settled e'.suspects e'.withdrawn e'.deferred).mono
      (fun q => ?_) fun q hq => ?_
    · change q ∈ withdrawn ↔ q ∈ e'.withdrawn
      rw [hwithdrawn_eq]
    · change (q ∈ e'.suspects ∨ q ∈ e'.support.lowered) ∨ _
      rw [hsuspects_eq]
      rcases hq with hq | hq
      · rcases hsuspects q hq with hsuspect | hhidden
        · exact Or.inl (Or.inl hsuspect)
        · exact Or.inr (Or.inl hhidden)
      · exact Or.inl (Or.inr hq)

theorem told_spec (h : s.Standing clean [] []) (hready : s.Ready round progress)
    (hsteady : clean → ∀ q, round = .reinstate q → 0 < s.engine.support.total q) :
    ∃ s', (s.start round).inject round.change = .ok s' ∧
      s.Told clean (s.start round) round.change s' := by
  have hdoubted : clean → s.engine.AllGrounded s.store (· ∈ s.engine.withdrawn)
      (· ∈ s.engine.suspects) := by
    intro hc
    refine (h.grounded hc).mono (fun _ => Iff.rfl) fun q hq => ?_
    exact Or.inl (hq.resolve_right List.not_mem_nil)
  have hhidden : ∀ q ∈ s.engine.withdrawn,
      s.store.contents.Has q ∧ q.graph = s.engine.graph :=
    fun q hq => ⟨h.ledger.hidden_stored q hq, h.ledger.hidden_graph q hq⟩
  cases hready with
  | @propagate c rest hpending hnone _ =>
      have hpending' : s.engine.pending = c :: s.engine.pending.tail := by
        rw [hpending]
        rfl
      have hmoves : s.Rearranges clean c s.engine.pending.tail s.engine.suspects
          s.engine.withdrawn := by
        constructor
        · exact Or.inr hpending'
        · intro held hheld
          refine hheld.propagate hpending' fun q hq => ?_
          have hq' : q ∈ s.engine.withdrawn := hq
          rw [hnone] at hq'
          exact OrderedSet.not_mem_empty q hq'
        · exact hhidden
        · exact fun _ => Or.inl
        · exact fun _ => id
        · exact fun hc => ⟨_, hdoubted hc, fun _ => id, fun _ => Or.inl⟩
      exact inject_spec h hmoves rfl
  | @withdraw q hsuspect hhas hq =>
      have hmem : ∀ x, x ∈ s.engine.withdrawn.insert q ↔ x ∈ s.engine.withdrawn ∨ x = q := by
        intro x
        rw [OrderedSet.mem_insert, or_comm, eq_comm]
      have hmoves : s.Rearranges clean (.lost q) s.engine.pending (s.engine.suspects.erase q)
          (s.engine.withdrawn.insert q) := by
        constructor
        · exact Or.inl rfl
        · exact fun held hheld => Sees.withdraw hmem hheld
        · intro x hx
          rcases (hmem x).1 hx with hx | rfl
          · exact hhidden x hx
          · exact ⟨hhas, h.ledger.doubted_graph x (Or.inl hsuspect)⟩
        · intro x hx
          by_cases heq : q = x
          · exact Or.inr ((hmem x).2 (Or.inr heq.symm))
          · exact Or.inl (OrderedSet.mem_erase.2 ⟨heq, hx⟩)
        · exact fun x hx => (OrderedSet.mem_erase.1 hx).2
        · refine fun hc => ⟨_, hdoubted hc, fun x hx => (hmem x).2 (Or.inl hx), fun x hx => ?_⟩
          rcases (hmem x).1 hx with hx | rfl
          · exact Or.inl hx
          · exact Or.inr rfl
      exact inject_spec h hmoves rfl
  | @reinstate q todo hnodup htodo =>
      have hq : q ∈ s.engine.withdrawn := htodo q List.mem_cons_self
      have hmem : ∀ x, x ∈ s.engine.withdrawn.erase q ↔ x ∈ s.engine.withdrawn ∧ x ≠ q := by
        intro x
        rw [OrderedSet.mem_erase, and_comm, ne_comm]
      have hmoves : s.Rearranges clean (.gained q) s.engine.pending s.engine.suspects
          (s.engine.withdrawn.erase q) := by
        constructor
        · exact Or.inl rfl
        · exact fun held hheld => Sees.reinstate h.ledger hq hmem hheld
        · exact fun x hx => hhidden x ((hmem x).1 hx).1
        · exact fun _ => Or.inl
        · exact fun _ => id
        · intro hc
          have hrevealed := (hdoubted hc).reveal h.ledger hc (hsteady hc q rfl) hmem
          exact ⟨_, hrevealed, fun _ => id, fun _ => Or.inl⟩
      exact inject_spec h hmoves rfl

/-! ## Carrying out a round -/

theorem perform_spec (h : s.Standing clean [] []) (hready : s.Ready round progress)
    (hsteady : clean → ∀ q, round = .reinstate q → 0 < s.engine.support.total q) :
    ∃ s', s.perform round = .ok s' ∧ s'.Upholds clean progress ∧ s.Frame s' := by
  obtain ⟨s₁, hinject, htold⟩ := told_spec h hready hsteady
  obtain ⟨s', hsettle, hstanding, hsettles⟩ := settle_spec round.phase htold.standing
  have hwithdrawn : s'.engine.withdrawn = (s.start round).engine.withdrawn := by
    rw [hsettles.withdrawn_eq]
    exact htold.same.withdrawn_eq
  have hframe : s.Frame s₁.taken := by
    constructor
    · exact htold.same.config_eq.trans (config_start s round)
    · exact htold.same.evaluator_eq.trans (evaluator_start s round)
    · exact htold.rule_eq
    · intro x _
      have hstore : s₁.taken.store = s.store := htold.store_eq
      rw [hstore]
  refine ⟨s', ?_, ⟨hstanding, hready.isDue hwithdrawn⟩, hframe.trans hsettles.frame⟩
  rw [perform, hinject, Result.ok_bind, hsettle]

end Entail.RunState
