import Entail.Proofs.Rules.History
/-!
# Positive rules

Rules without negation and aggregation only match more when quads come, and only match less when quads
go. So a quad that is supported when a pass begins to reinstate is still supported when its turn comes.
-/

namespace Entail

open RuleEngine

theorem Change.le_step_gained {α : Type} {held : α → Prop} {a b : α} (h : held a) :
    (Change.gained b).step held a :=
  Or.inl h

theorem Change.step_lost_le {α : Type} {held : α → Prop} {a b : α}
    (h : (Change.lost b).step held a) : held a :=
  h.1

instance (r : Rule) : Decidable r.IsPositive :=
  inferInstanceAs (Decidable (r.condition.negatives = [] ∧ r.condition.aggregation = none))

namespace Rule.IsPositive

variable {r : Rule} {ev : Evaluator} {held held' : Quad → Prop} {t : Token}

theorem isOutput_iff (h : r.IsPositive) : r.condition.IsOutput ev held t ↔
    t.IsHeld held ∧ Pattern.FitsAll t.bindings r.condition.positives t.facts ∧
      ∀ v, t.bindings.contains v = true ↔ v ∈ r.condition.positiveVariables := by
  rw [Condition.IsOutput, h.2]
  constructor
  · rintro ⟨hheld, hfits, hbinds, _⟩
    exact ⟨hheld, hfits, hbinds⟩
  · rintro ⟨hheld, hfits, hbinds⟩
    refine ⟨hheld, hfits, hbinds, ?_⟩
    rw [h.1]
    exact fun _ hmem => absurd hmem List.not_mem_nil

theorem mono (h : r.IsPositive) (hle : ∀ q, held q → held' q)
    (ht : r.condition.IsOutput ev held t) : r.condition.IsOutput ev held' t := by
  rw [h.isOutput_iff] at ht ⊢
  exact ⟨fun q hq => hle q (ht.1 q hq), ht.2⟩

end Rule.IsPositive

namespace RuleEngine

variable {e : RuleEngine} {seen : String → (Quad → Prop) → Prop} {q : Quad} {r : Rule} {t : Token}

/-- All rules are positive. -/
def IsPositive (e : RuleEngine) : Prop :=
  ∀ id r, e.rule? id = some r → r.IsPositive

theorem IsPositive.not_vanishes (h : e.IsPositive) : ¬ e.Vanishes (.gained q) seen r t := by
  rintro ⟨hruns, held, _, hout, hnot⟩
  exact hnot ((h r.id r hruns.2).mono (fun _ => Change.le_step_gained) hout)

theorem IsPositive.not_appears (h : e.IsPositive) : ¬ e.Appears (.lost q) seen r t := by
  rintro ⟨hruns, held, _, hnot, hout⟩
  exact hnot ((h r.id r hruns.2).mono (fun _ => Change.step_lost_le) hout)

end RuleEngine

namespace RunState

variable {clean : Prop} {s s' : RunState} {progress : Progress} {q : Quad}

theorem Frame.isPositive (h : s.Frame s') (hpos : s.engine.IsPositive) :
    s'.engine.IsPositive := by
  intro id r hr
  rw [h.rule_eq] at hr
  exact hpos id r hr

private theorem Told.total_pos {s₁ : RunState} (h : s.Told clean s₁ (.gained q) s')
    (hbefore : s.Standing clean [] []) (hpos : s.engine.IsPositive)
    (hsame : s₁.engine.config = s.engine.config ∧ s₁.engine.evaluator = s.engine.evaluator)
    {x : Quad} (hx : 0 < s.engine.support.total x) : 0 < s'.engine.support.total x := by
  obtain ⟨r, t, hfires, hconcludes⟩ := hbefore.ledger.tracks.total_pos_iff.1 hx
  have hfires' : s'.engine.Fires r t :=
    (h.evolves.kept r t hfires).resolve_right fun hl => hpos.not_vanishes hl.1
  have hconfig : s'.engine.config = s.engine.config := h.same.config_eq.trans hsame.1
  have hevaluator : s'.engine.evaluator = s.engine.evaluator :=
    h.same.evaluator_eq.trans hsame.2
  have htaken : 0 < s'.taken.engine.support.total x := by
    refine h.standing.ledger.tracks.total_pos_iff.2 ⟨r, t, hfires', ?_⟩
    have hgraph : s'.taken.engine.graph = s.engine.graph :=
      congrArg (fun c : Config => Node.iri c.inferenceGraph) hconfig
    have hev : s'.taken.engine.evaluator = s.engine.evaluator := hevaluator
    rw [hgraph, hev]
    exact hconcludes
  exact htaken

private theorem perform_total_pos (h : s.Standing clean [] []) (hpos : s.engine.IsPositive)
    (hready : s.Ready (.reinstate q) progress) (hperform : s.perform (.reinstate q) = .ok s')
    {x : Quad} (hx : 0 < s.engine.support.total x) : 0 < s'.engine.support.total x := by
  have hweak : s.Standing False [] [] := ⟨h.ledger.weaken False.elim, False.elim⟩
  obtain ⟨s₁, hinject, htold⟩ := told_spec hweak hready False.elim
  obtain ⟨s₂, hsettle, _, hsettles⟩ := settle_spec (Round.reinstate q).phase htold.standing
  have heq : s.perform (.reinstate q) = .ok s₂ := by
    rw [perform, hinject, Result.ok_bind, hsettle]
  obtain rfl : s₂ = s' := Result.eq_of_eq_ok heq hperform
  rw [hsettles.support_eq]
  exact htold.total_pos hweak hpos ⟨rfl, rfl⟩ hx

private theorem next_reinstate {rest : List Quad}
    (h : s.next progress = .ok (s', some (.reinstate q, .reinstating rest))) {x : Quad}
    (hx : x ∈ q :: rest) :
    (s' = s ∧ progress = .reinstating (q :: rest)) ∨ 0 < s'.engine.support.total x := by
  have hrevived : ∀ {s : RunState} {todo : List Quad},
      s.nextRevived todo = some (.reinstate q, .reinstating rest) →
      todo = q :: rest ∨ 0 < s.engine.support.total x := by
    intro s todo h
    obtain ⟨_, _, ⟨⟩, ⟨⟩, hheld | hfound⟩ := nextRevived_eq_some h
    · exact Or.inl hheld
    · rw [← hfound] at hx
      exact Or.inr (mem_revived.1 hx).2
  cases next_eq_ok_iff.1 h with
  | outside _ hnext => cases nextOutside_eq_iff.1 hnext
  | inPass _ hnext =>
      cases nextInPass_eq_iff.1 hnext with
      | revive _ _ h => exact Or.inr ((hrevived h).resolve_left nofun)
      | reinstate hprogress h =>
          rcases hrevived h with rfl | hpos
          · exact Or.inl ⟨rfl, hprogress⟩
          · exact Or.inr hpos
  | finish _ _ _ hlast => cases nextOutside_eq_iff.1 hlast

/-- A run of positive rules reinstates supported quads only. -/
theorem isSteady_of_isPositive {rounds : Nat} (h : s.Upholds clean progress)
    (hpos : s.engine.IsPositive)
    (htodo : ∀ todo, progress = .reinstating todo → ∀ q ∈ todo, 0 < s.engine.support.total q) :
    s.isSteady progress rounds = true := by
  induction rounds generalizing s progress clean with
  | zero => rfl
  | succ rounds ih =>
      have hweak : s.Upholds False progress :=
        ⟨⟨h.standing.ledger.weaken False.elim, False.elim⟩, h.todo⟩
      obtain ⟨s₁, step, hnext, hdecided, hrules⟩ := next_spec hweak
      rw [isSteady, hnext]
      cases step with
      | none => rfl
      | some step =>
          obtain ⟨round, progress'⟩ := step
          obtain ⟨hstanding, hready⟩ := hdecided
          obtain ⟨s₂, hperform, hupholds, hrules'⟩ := perform_spec hstanding hready False.elim
          have hpos₁ := hrules.isPositive hpos
          have hsupported : ∀ q rest, round = .reinstate q → progress' = .reinstating rest →
              ∀ x ∈ q :: rest, 0 < s₁.engine.support.total x := by
            rintro q rest rfl rfl x hx
            rcases next_reinstate hnext hx with ⟨rfl, rfl⟩ | hx
            · exact htodo _ rfl x hx
            · exact hx
          have hrest : ∀ todo, progress' = .reinstating todo →
              ∀ q ∈ todo, 0 < s₂.engine.support.total q := by
            rintro todo rfl x hx
            cases hready with
            | reinstate hnodup hmem =>
                have hx' := hsupported _ todo rfl rfl x (List.mem_cons_of_mem _ hx)
                exact perform_total_pos hstanding hpos₁ (.reinstate hnodup hmem) hperform hx'
          simp only [hperform, Bool.and_eq_true]
          refine ⟨?_, ih hupholds (hrules'.isPositive hpos₁) hrest⟩
          cases hready with
          | propagate _ _ _ => rfl
          | withdraw _ _ _ => rfl
          | reinstate _ _ =>
              exact decide_eq_true (hsupported _ _ rfl rfl _ List.mem_cons_self)

end RunState

theorem Turn.isSteady_of_isPositive {t : Turn} (h : (t.engine.begin t.store).Upholds False .idle)
    (hpos : t.engine.IsPositive) (hadd : ∀ r, t.request = .add r → r.IsPositive) :
    t.isSteady = true := by
  rcases t.outcome_spec h False.elim with ⟨hnone, _⟩ | ⟨s, hopens⟩
  · rw [isSteady, hnone]
  · rw [isSteady, hopens.opening_eq]
    refine RunState.isSteady_of_isPositive hopens.upholds (fun id r hr => ?_) fun todo hp => ?_
    · rw [hopens.rule_eq] at hr
      exact Request.rule?_induction (fun r active hr => hr) hpos hadd hr
    · cases hp

namespace History

variable {config : Config} {ev : Evaluator} {e : RuleEngine} {σ : Store} {turns : List Turn}

/-- No run of a history with positive rules reinstated an unsupported quad. -/
theorem isSteady_of_isPositive (h : History config ev e σ turns)
    (hpos : ∀ t ∈ turns, ∀ r, t.request = .add r → r.IsPositive) :
    ∀ t ∈ turns, t.isSteady = true := by
  induction h with
  | start _ => exact fun t ht => absurd ht List.not_mem_nil
  | mutate _ _ _ ih => exact ih hpos
  | @request e σ turns request h ih =>
      have hpos' : ∀ t ∈ turns, ∀ r, t.request = .add r → r.IsPositive :=
        fun t ht => hpos t (List.mem_cons_of_mem _ ht)
      refine List.forall_mem_cons.2 ⟨?_, ih hpos'⟩
      exact Turn.isSteady_of_isPositive (h.upholds.1.weaken False.elim)
        (h.rules (fun _ _ hr => hr) hpos') (hpos _ List.mem_cons_self)

theorem isClean_of_isPositive (h : History config ev e σ turns)
    (hpos : ∀ t ∈ turns, ∀ r, t.request = .add r → r.IsPositive)
    (hstop : ∀ t ∈ turns, ¬ t.IsStopped) : IsClean turns :=
  fun t ht => ⟨hstop t ht, h.isSteady_of_isPositive hpos t ht⟩

end History

/-- The request takes in no rule, or a positive one. -/
def Turn.addsPositive (t : Turn) : Bool :=
  match t.request with
  | .add r => decide r.IsPositive
  | _ => true

theorem Turn.isPositive_of_all {turns : List Turn} (h : turns.all Turn.addsPositive = true) :
    ∀ t ∈ turns, ∀ r, t.request = .add r → r.IsPositive := by
  intro t ht r hr
  have hadds := List.all_eq_true.1 h t ht
  rw [addsPositive, hr] at hadds
  exact of_decide_eq_true hadds

end Entail
