import Entail.Proofs.Rules.Choices
import Entail.Proofs.Rules.Quiet
/-!
# Moves

A run of positive rules, move by move. While it propagates gains the store grows, and while it
propagates losses the store shrinks. A pass begins when nothing waits, leaves the store alone until its
end, and ends by taking quads from it.
-/

namespace Entail.RunState

open RuleEngine

variable {s s' : RunState} {progress progress' : Progress} {round : Round} {q x : Quad}

/-- A rule concludes the quad over the store. -/
def Derives (s : RunState) (q : Quad) : Prop :=
  ∃ r t, s.engine.Runs r ∧
    r.condition.IsOutput s.engine.evaluator s.store.contents.Has t ∧
    r.Concludes s.engine.evaluator s.engine.graph t q

/-- What holds within a pass. -/
structure Passing (s : RunState) : Prop where
  queue_eq : s.engine.queue s.store = []
  complete : ∀ q, s.Derives q → s.store.contents.Has q
  deferred : ∀ q ∈ s.engine.deferred, s.store.contents.Has q

/-- What holds between two rounds of positive rules. -/
structure Orderly (s : RunState) (progress : Progress) : Prop where
  upholds : s.Upholds False progress
  positive : s.engine.IsPositive
  idle : progress = .idle → s.engine.withdrawn = ∅ ∧ s.engine.deferred = ∅
  passing : progress ≠ .idle → s.Passing
  suspects : ∀ todo, progress = .reinstating todo → s.engine.suspects = ∅

/-! ## What stays -/

theorem Frame.runs_iff (h : s.Frame s') {r : Rule} : s'.engine.Runs r ↔ s.engine.Runs r := by
  rw [Runs, h.rule_eq, Runs]

theorem Frame.derives_iff (h : s.Frame s') (hstore : s'.store.contents = s.store.contents) :
    s'.Derives q ↔ s.Derives q := by
  simp only [Derives, h.runs_iff, h.evaluator_eq, h.graph_eq, hstore]

theorem Passing.keeps (h : s.Passing) (hkeeps : s.Keeps s') : s'.Passing where
  queue_eq := by rw [hkeeps.queue_eq, h.queue_eq]
  complete q hq := by
    rw [hkeeps.contents_eq]
    exact h.complete q ((hkeeps.frame.derives_iff hkeeps.contents_eq).1 hq)
  deferred q hq := by
    rw [hkeeps.deferred_eq] at hq
    rw [hkeeps.contents_eq]
    exact h.deferred q hq

/-- Quads that the networks have seen are stored, unless a loss is yet to be propagated. -/
theorem Standing.stored_of_sees (h : s.Standing False [] [])
    (hnone : ∀ x, .lost x ∉ s.engine.queue s.store) {held : Quad → Prop}
    (hheld : s.engine.Sees False s.store (· ∈ s.engine.withdrawn) held) (hx : held x) :
    s.store.contents.Has x := by
  rcases hheld.has_or_lost hx with hlost | hhidden | hhas
  · exact absurd hlost (hnone x)
  · exact h.ledger.hidden_stored x hhidden
  · exact hhas

theorem Standing.derives_of_raises (h : s.Standing False [] []) (hpos : s.engine.IsPositive)
    (hnone : ∀ x, .lost x ∉ s.engine.queue s.store) (hround : round.change = .gained q)
    (hq : s.store.contents.Has q) (hx : s.Raises round x) : s.Derives x := by
  obtain ⟨r, t, ⟨hruns, held, hheld, _, hout⟩, hc⟩ := hx
  rw [hround] at hout
  refine ⟨r, t, hruns, (hpos r.id r hruns.2).mono (fun y hy => ?_) hout, hc⟩
  rcases hy with hy | rfl
  · exact h.stored_of_sees hnone hheld hy
  · exact hq

/-! ## Rounds of a pass -/

private theorem passing_of_performs (h : s.Passing) (hperforms : s.Performs round s')
    (hframe : s.Frame s') (hstore : s'.store = s.store) (hphase : round.phase ≠ .outside)
    (hraises : ∀ x, s.Raises round x → s.Derives x) : s'.Passing := by
  have hcontents : s'.store.contents = s.store.contents := by
    rw [hstore]
  refine ⟨?_, fun q hq => ?_, fun q hq => ?_⟩
  · rw [hperforms.queue_of_store_eq hstore hphase]
    exact h.queue_eq
  · rw [hcontents]
    exact h.complete q ((hframe.derives_iff hcontents).1 hq)
  · rw [hcontents]
    rcases hperforms.deferred_from q hq with hq | hq
    · exact h.deferred q hq
    · exact h.complete q (hraises q hq)

theorem Passing.withdraw (h : s.Passing) (hstanding : s.Standing False [] [])
    (hpos : s.engine.IsPositive) (hready : s.Ready (.withdraw q) .withdrawing) :
    ∃ s', s.perform (.withdraw q) = .ok s' ∧ s'.Orderly .withdrawing ∧ s.Frame s' ∧
      s'.store = s.store ∧ s'.engine.withdrawn = s.engine.withdrawn.insert q := by
  obtain ⟨s', hperform, hperforms, hupholds, hframe⟩ := performs_spec hstanding hready
  have hraises := not_raises_of_lost hpos (.withdraw q) rfl
  have hstore : s'.store = s.store := by
    refine hperforms.publishes.eq_of_none fun c hc => ?_
    rcases hc with ⟨hp, _⟩ | ⟨hp, _⟩
    · cases hp
    · exact hp rfl
  have hpassing := passing_of_performs h hperforms hframe hstore nofun
    fun x hx => absurd hx (hraises x)
  have horderly : s'.Orderly .withdrawing :=
    ⟨hupholds, hframe.isPositive hpos, nofun, fun _ => hpassing, nofun⟩
  exact ⟨s', hperform, horderly, hframe, hstore, hperforms.withdrawn_eq⟩

theorem Passing.reinstate {todo : List Quad} (h : s.Passing) (hstanding : s.Standing False [] [])
    (hpos : s.engine.IsPositive) (hsuspects : s.engine.suspects = ∅)
    (hready : s.Ready (.reinstate q) (.reinstating todo)) :
    ∃ s', s.perform (.reinstate q) = .ok s' ∧ s'.Orderly (.reinstating todo) ∧ s.Frame s' ∧
      s'.store = s.store ∧ s'.engine.withdrawn = s.engine.withdrawn.erase q := by
  obtain ⟨s', hperform, hperforms, hupholds, hframe⟩ := performs_spec hstanding hready
  have hlowers := not_lowers_of_gained hpos (.reinstate q) rfl
  have hq : s.store.contents.Has q := by
    cases hready with
    | reinstate _ hmem => exact hstanding.ledger.hidden_stored q (hmem q List.mem_cons_self)
  have hstore : s'.store = s.store := by
    refine hperforms.publishes.eq_of_none fun c hc => ?_
    rcases hc with ⟨hp, _⟩ | ⟨_, y, hy, _⟩
    · cases hp
    · exact hlowers y hy
  have hnone : ∀ x, .lost x ∉ s.engine.queue s.store := by
    rw [h.queue_eq]
    exact fun _ => List.not_mem_nil
  have hpassing := passing_of_performs h hperforms hframe hstore nofun
    fun x hx => hstanding.derives_of_raises hpos hnone rfl hq hx
  have hsuspects' : s'.engine.suspects = ∅ := by
    rw [hperforms.suspects_eq hlowers]
    exact hsuspects
  have horderly : s'.Orderly (.reinstating todo) :=
    ⟨hupholds, hframe.isPositive hpos, nofun, fun _ => hpassing, fun _ _ => hsuspects'⟩
  exact ⟨s', hperform, horderly, hframe, hstore, hperforms.withdrawn_eq⟩

/-! ## Rounds outside a pass -/

private theorem propagate_step {c : Change Quad} (hstanding : s.Standing False [] [])
    (hpos : s.engine.IsPositive) (hready : s.Ready (.propagate c) .idle) :
    ∃ s' changes, s.perform (.propagate c) = .ok s' ∧ s'.Orderly .idle ∧ s.Frame s' ∧
      Publishes (s.Allows (.propagate c)) s.store s'.store ∧
      s'.engine.queue s'.store = (s.engine.queue s.store).tail ++ changes ∧
      (∀ x ∈ changes, s.Allows (.propagate c) x) ∧ (s'.store = s.store → changes = []) := by
  obtain ⟨s', hperform, hperforms, hupholds, hframe⟩ := performs_spec hstanding hready
  cases hready with
  | @propagate _ more hpending hwithdrawn hdeferred =>
      obtain ⟨changes, hall, hqueue⟩ := hperforms.queue_propagate hstanding hpending
      have hwithdrawn' : s'.engine.withdrawn = ∅ := by
        rw [hperforms.withdrawn_eq]
        exact hwithdrawn
      have hdeferred' : s'.engine.deferred = ∅ := by
        rw [hperforms.deferred_eq rfl]
        exact hdeferred
      have horderly : s'.Orderly .idle := ⟨hupholds, hframe.isPositive hpos,
        fun _ => ⟨hwithdrawn', hdeferred'⟩, fun hx => absurd rfl hx, nofun⟩
      refine ⟨s', changes, hperform, horderly, hframe, hperforms.publishes, hqueue, hall,
        fun hstore => ?_⟩
      · have htail : s'.engine.pending = more := by
          rw [hperforms.pending_eq, start, hpending]
          rfl
        rw [queue, htail, hperforms.subscription_eq, hstore, queue, hpending, List.cons_append,
          List.tail_cons] at hqueue
        exact List.self_eq_append_right.1 hqueue

theorem propagate_gained (hstanding : s.Standing False [] []) (hpos : s.engine.IsPositive)
    (hready : s.Ready (.propagate (.gained q)) .idle) :
    ∃ s' changes, s.perform (.propagate (.gained q)) = .ok s' ∧ s'.Orderly .idle ∧ s.Frame s' ∧
      s'.engine.queue s'.store = (s.engine.queue s.store).tail ++ changes ∧
      (∀ c ∈ changes, c.isGain = true) ∧
      (∀ x, s.store.contents.Has x → s'.store.contents.Has x) ∧
      (∀ x, s'.store.contents.Has x →
        s.store.contents.Has x ∨ s.Raises (.propagate (.gained q)) x) ∧
      (changes = [] ∨ ∃ x, ¬ s.store.contents.Has x ∧ s'.store.contents.Has x) := by
  obtain ⟨s', changes, hperform, horderly, hframe, hpublishes, hqueue, hall, hnone⟩ :=
    propagate_step hstanding hpos hready
  have hlowers := not_lowers_of_gained hpos (.propagate (.gained q)) rfl
  have hgains : ∀ c, s.Allows (.propagate (.gained q)) c →
      ∃ y, s.Raises (.propagate (.gained q)) y ∧ c = .gained y := by
    rintro c (⟨_, hc⟩ | ⟨_, y, hy, _⟩)
    · exact hc
    · exact absurd hy (hlowers y)
  obtain ⟨hgrows, hfrom, hmore⟩ := hpublishes.grows fun x hx => by
    obtain ⟨y, _, heq⟩ := hgains _ hx
    cases heq
  refine ⟨s', changes, hperform, horderly, hframe, hqueue, fun c hc => ?_, hgrows,
    fun x hx => ?_, hmore.imp_left hnone⟩
  · obtain ⟨y, _, rfl⟩ := hgains c (hall c hc)
    rfl
  · rcases hfrom x hx with hx | hx
    · exact Or.inl hx
    · obtain ⟨y, hy, heq⟩ := hgains _ hx
      obtain rfl := Change.gained.inj heq
      exact Or.inr hy

theorem propagate_lost (hstanding : s.Standing False [] []) (hpos : s.engine.IsPositive)
    (hready : s.Ready (.propagate (.lost q)) .idle) :
    ∃ s' changes, s.perform (.propagate (.lost q)) = .ok s' ∧ s'.Orderly .idle ∧ s.Frame s' ∧
      s'.engine.queue s'.store = (s.engine.queue s.store).tail ++ changes ∧
      (∀ c ∈ changes, c.isGain = false) ∧
      (∀ x, s'.store.contents.Has x → s.store.contents.Has x) ∧
      (changes = [] ∨ ∃ x, s.store.contents.Has x ∧ ¬ s'.store.contents.Has x) := by
  obtain ⟨s', changes, hperform, horderly, hframe, hpublishes, hqueue, hall, hnone⟩ :=
    propagate_step hstanding hpos hready
  have hraises := not_raises_of_lost hpos (.propagate (.lost q)) rfl
  have hlosses : ∀ c, s.Allows (.propagate (.lost q)) c → c.isGain = false := by
    rintro c (⟨_, y, hy, _⟩ | ⟨_, y, _, rfl⟩)
    · exact absurd hy (hraises y)
    · rfl
  obtain ⟨hshrinks, hfewer⟩ := hpublishes.shrinks fun x hx => by
    cases hlosses _ hx
  exact ⟨s', changes, hperform, horderly, hframe, hqueue, fun c hc => hlosses c (hall c hc),
    hshrinks, hfewer.imp_left hnone⟩

/-! ## Moves -/

/-- What one choice and the round chosen make of the state. -/
inductive Moves (s : RunState) : Progress → RunState → Progress → Prop where
  | gain {s' : RunState} {q : Quad} {rest changes : List (Change Quad)} :
    s.engine.queue s.store = .gained q :: rest → s'.engine.queue s'.store = rest ++ changes →
    (∀ c ∈ changes, c.isGain = true) →
    (∀ x, s.store.contents.Has x → s'.store.contents.Has x) →
    ((∀ c ∈ rest, c.isGain = true) → ∀ x, s'.store.contents.Has x →
      s.store.contents.Has x ∨ s.Derives x) →
    (changes = [] ∨ ∃ x, ¬ s.store.contents.Has x ∧ s'.store.contents.Has x) →
    Moves s .idle s' .idle
  | loss {s' : RunState} {q : Quad} {rest changes : List (Change Quad)} :
    s.engine.queue s.store = .lost q :: rest → s'.engine.queue s'.store = rest ++ changes →
    (∀ c ∈ changes, c.isGain = false) →
    (∀ x, s'.store.contents.Has x → s.store.contents.Has x) →
    (changes = [] ∨ ∃ x, s.store.contents.Has x ∧ ¬ s'.store.contents.Has x) →
    Moves s .idle s' .idle
  | begin {s' : RunState} : s'.store.contents = s.store.contents → Moves s .idle s' .withdrawing
  | withdraw {s' : RunState} {q : Quad} : s'.store.contents = s.store.contents →
    s.store.contents.Has q → q ∉ s.engine.withdrawn →
    s'.engine.withdrawn = s.engine.withdrawn.insert q → Moves s .withdrawing s' .withdrawing
  | turn {s' : RunState} {todo : List Quad} : s'.store.contents = s.store.contents →
    Moves s .withdrawing s' (.reinstating todo)
  | reinstate {s' : RunState} {q : Quad} {todo todo' : List Quad} :
    s'.store.contents = s.store.contents → q ∈ s.engine.withdrawn →
    s'.engine.withdrawn = s.engine.withdrawn.erase q →
    Moves s (.reinstating todo) s' (.reinstating todo')
  | finish {s' : RunState} {progress : Progress} : progress ≠ .idle →
    (∀ x, s'.store.contents.Has x → s.store.contents.Has x) →
    (∃ x, s.store.contents.Has x ∧ ¬ s'.store.contents.Has x) →
    (∀ c ∈ s'.engine.queue s'.store, c.isGain = false) → Moves s progress s' .idle

/-- The run of `s` goes on with `s'`. -/
structure Goes (s : RunState) (progress : Progress) (s' : RunState) (progress' : Progress) :
    Prop where
  steps : ∃ s₁ round, s.next progress = .ok (s₁, some (round, progress')) ∧
    s₁.perform round = .ok s'
  orderly : s'.Orderly progress'
  moves : s.Moves progress s' progress'
  frame : s.Frame s'

theorem Goes.run_eq (h : s.Goes progress s' progress') (rounds : Nat) :
    s.run progress (rounds + 1) = s'.run progress' rounds := by
  obtain ⟨s₁, round, hnext, hperform⟩ := h.steps
  rw [run, hnext, Result.ok_bind]
  simp only [hperform, Result.ok_bind]

theorem Orderly.outside {step : Option (Round × Progress)} (h : s.Orderly .idle)
    (hnext : s.next .idle = .ok (s', step)) : s.Outside (s', step) := by
  obtain ⟨hwithdrawn, hdeferred⟩ := h.idle rfl
  obtain ⟨hnext', houtside⟩ := next_idle h.upholds.standing hwithdrawn hdeferred
  rwa [Result.eq_of_eq_ok hnext' hnext] at houtside

theorem Orderly.passing_of_idle (h : s.Orderly .idle) (hqueue : s.engine.queue s.store = []) :
    s.Passing := by
  obtain ⟨hwithdrawn, hdeferred⟩ := h.idle rfl
  have hledger := h.upholds.standing.ledger
  have hnone : ∀ q, ¬ q ∈ s.engine.withdrawn := by
    rw [hwithdrawn]
    exact OrderedSet.not_mem_empty
  have hawaited : ∀ q, ¬ (q ∈ s.engine.deferred ∨ q ∈ ([] : List Quad)) := by
    rw [hdeferred]
    exact fun q => not_or.2 ⟨OrderedSet.not_mem_empty q, List.not_mem_nil⟩
  refine ⟨hqueue, ?_, fun q hq => absurd (Or.inl hq) (hawaited q)⟩
  rintro q ⟨r, t, hruns, hout, hc⟩
  exact hledger.holdsConclusions hqueue hnone hawaited r (hledger.tracks.mem_activeRules_iff.2 hruns)
    t q hout hc

private theorem stored_of_gained (h : s.Standing False [] [])
    (hmem : .gained q ∈ s.engine.queue s.store) (hnone : .lost q ∉ s.engine.queue s.store) :
    s.store.contents.Has q := by
  obtain ⟨past, hpast⟩ := h.ledger.current
  refine (hpast q).1 ?_
  rcases Change.stepAll_cases (s.engine.queue s.store) q with ⟨_, hall⟩ | ⟨hlost, _⟩ | ⟨hnot, _⟩
  · exact hall past
  · exact absurd hlost hnone
  · exact absurd hmem hnot

private theorem goes_of_idle (h : s.Orderly .idle) :
    (s.engine.queue s.store = [] ∧ ∃ s', s.next .idle = .ok (s', none)) ∨
      ∃ s' progress', s.Goes .idle s' progress' := by
  obtain ⟨s₁, step, hnext', hdecided, hframe⟩ := next_spec h.upholds
  have hpos := hframe.isPositive h.positive
  cases h.outside hnext' with
  | stop hqueue _ => exact Or.inl ⟨hqueue, s₁, hnext'⟩
  | withdraw hqueue hsuspect hkeeps =>
      obtain ⟨hstanding, hready⟩ := hdecided
      have hpassing := (h.passing_of_idle hqueue).keeps hkeeps
      obtain ⟨s', hperform, horderly, hframe', hstore, _⟩ :=
        hpassing.withdraw hstanding hpos hready
      have hcontents : s'.store.contents = s.store.contents := by
        rw [hstore, hkeeps.contents_eq]
      exact Or.inr ⟨s', .withdrawing, ⟨_, _, hnext', hperform⟩, horderly, .begin hcontents,
        hframe.trans hframe'⟩
  | @propagate _ c rest more hqueue hpending _ hkeeps =>
      obtain ⟨hstanding, hready⟩ := hdecided
      have hhas : s₁.store.contents = s.store.contents := hkeeps.contents_eq
      cases c with
      | lost q =>
          obtain ⟨s', changes, hperform, horderly, hframe', hqueue', hall, hshrinks, hfewer⟩ :=
            propagate_lost hstanding hpos hready
          rw [hkeeps.queue_eq, hqueue, List.tail_cons] at hqueue'
          rw [hhas] at hshrinks hfewer
          exact Or.inr ⟨s', .idle, ⟨_, _, hnext', hperform⟩, horderly,
            .loss hqueue hqueue' hall hshrinks hfewer, hframe.trans hframe'⟩
      | gained q =>
          obtain ⟨s', changes, hperform, horderly, hframe', hqueue', hall, hgrows, hfrom, hmore⟩ :=
            propagate_gained hstanding hpos hready
          rw [hkeeps.queue_eq, hqueue, List.tail_cons] at hqueue'
          rw [hhas] at hgrows hmore
          refine Or.inr ⟨s', .idle, ⟨_, _, hnext', hperform⟩, horderly,
            .gain hqueue hqueue' hall hgrows (fun hrest x hx => ?_) hmore, hframe.trans hframe'⟩
          have hnone : ∀ y, .lost y ∉ s₁.engine.queue s₁.store := by
            intro y hy
            rw [hkeeps.queue_eq, hqueue] at hy
            rcases List.mem_cons.1 hy with hy | hy
            · cases hy
            · cases hrest _ hy
          have hmem : .gained q ∈ s₁.engine.queue s₁.store := by
            rw [hkeeps.queue_eq, hqueue]
            exact List.mem_cons_self
          have hq := stored_of_gained hstanding hmem (hnone q)
          rcases hfrom x hx with hx | hx
          · rw [hhas] at hx
            exact Or.inl hx
          · have hderives := hstanding.derives_of_raises hpos hnone rfl hq hx
            exact Or.inr ((hframe.derives_iff hhas).1 hderives)

theorem Passing.finalize (h : s.Passing) (hstanding : s.Standing False [] [])
    (hzero : ∀ q ∈ s.engine.withdrawn, s.engine.support.total q = 0)
    (hfinalize : s.finalize = .ok s') :
    s'.Standing False [] [] ∧ s.Frame s' ∧
      s'.engine = { s.engine with withdrawn := ∅, deferred := ∅ } ∧
      (∀ x, s'.store.contents.Has x ↔ s.store.contents.Has x ∧ x ∉ s.engine.withdrawn) ∧
      (∀ c ∈ s'.engine.queue s'.store, ∃ q ∈ s.engine.withdrawn, c = .lost q) ∧
      s.store.Announces (fun _ => True) (s'.engine.queue s'.store) s'.store := by
  obtain ⟨hengine, hpublishes, hhas⟩ := finalize_effects hfinalize hzero h.deferred
  obtain ⟨changes, hall, hannounces⟩ := hpublishes.announces
  obtain ⟨_, hwaiting⟩ := hannounces.waiting _ trivial hstanding.ledger.subscribed
  have hqueue : s'.engine.queue s'.store = changes := by
    obtain ⟨hpending, hnone⟩ := List.append_eq_nil_iff.1 h.queue_eq
    rw [hengine, queue]
    simp only
    rw [hwaiting, hpending, hnone]
    rfl
  obtain ⟨store, report, hfinalize', hstanding', hframe⟩ := finalize_spec hstanding hzero
  obtain rfl := Result.eq_of_eq_ok hfinalize' hfinalize
  rw [hqueue]
  exact ⟨hstanding', hframe, hengine, hhas, hall, hannounces⟩

private theorem goes_of_finish {s₁ s₂ : RunState} (h : s.Orderly progress)
    (hpass : progress ≠ .idle) (hkeeps : s.Keeps s₁) (hsuspects : s₁.engine.suspects = ∅)
    (hzero : ∀ q ∈ s₁.engine.withdrawn, s₁.engine.support.total q = 0)
    (hstanding : s₁.Standing False [] []) (hfinalize : s₁.finalize = .ok s₂)
    (hnext : s.next progress = .ok s₂.nextOutside) :
    (∃ s', s.next progress = .ok (s', none)) ∨
      ∃ s' progress', s.Goes progress s' progress' := by
  obtain ⟨hstanding₂, _, hengine, hhas, hall, _⟩ :=
    ((h.passing hpass).keeps hkeeps).finalize hstanding hzero hfinalize
  rw [hkeeps.contents_eq] at hhas
  obtain ⟨s₃, step, hnext', hdecided, hframe⟩ := next_spec h.upholds
  have hpos := hframe.isPositive h.positive
  have heq := Result.eq_of_eq_ok hnext hnext'
  have houtside := nextOutside_outside hstanding₂
  rw [heq] at houtside
  cases houtside with
  | stop _ _ => exact Or.inl ⟨s₃, hnext'⟩
  | withdraw _ hsuspect _ =>
      rw [hengine] at hsuspect
      have hsuspect' : _ ∈ s₁.engine.suspects := hsuspect
      rw [hsuspects] at hsuspect'
      exact absurd hsuspect' (OrderedSet.not_mem_empty _)
  | @propagate _ c rest more hcons hpending _ hkeeps' =>
      obtain ⟨hstanding₃, hready⟩ := hdecided
      rw [hcons] at hall
      obtain ⟨q, hq, rfl⟩ := hall c List.mem_cons_self
      obtain ⟨s', more, hperform, horderly, hframe', hqueue', hlosses, hshrinks, _⟩ :=
        propagate_lost hstanding₃ hpos hready
      rw [hkeeps'.contents_eq] at hshrinks
      rw [hkeeps'.queue_eq, hcons, List.tail_cons] at hqueue'
      have hkept : ∀ x, s'.store.contents.Has x →
          s.store.contents.Has x ∧ x ∉ s₁.engine.withdrawn := fun x hx => (hhas x).1 (hshrinks x hx)
      have hstored : s.store.contents.Has q := by
        rw [← hkeeps.contents_eq]
        exact hstanding.ledger.hidden_stored q hq
      have hlost : ∀ c ∈ s'.engine.queue s'.store, c.isGain = false := by
        intro c hc
        rw [hqueue'] at hc
        rcases List.mem_append.1 hc with hc | hc
        · obtain ⟨y, _, rfl⟩ := hall c (List.mem_cons_of_mem _ hc)
          rfl
        · exact hlosses c hc
      have hmoves : s.Moves progress s' .idle := .finish hpass (fun x hx => (hkept x hx).1)
        ⟨q, hstored, fun hx => (hkept q hx).2 hq⟩ hlost
      exact Or.inr ⟨s', .idle, ⟨_, _, hnext', hperform⟩, horderly, hmoves, hframe.trans hframe'⟩

private theorem goes_of_pass (h : s.Orderly progress) (hpass : progress ≠ .idle) :
    (∃ s', s.next progress = .ok (s', none)) ∨
      ∃ s' progress', s.Goes progress s' progress' := by
  obtain ⟨choice, hnext, hwithin⟩ := next_within h.upholds hpass h.suspects
  cases hwithin with
  | finish hkeeps hsuspects hstanding hzero hfinalize =>
      exact goes_of_finish h hpass hkeeps hsuspects hzero hstanding hfinalize hnext
  | @withdraw s₁ q hkeeps =>
      obtain ⟨s₂, step, hnext', hdecided, hframe⟩ := next_spec h.upholds
      obtain ⟨rfl, rfl⟩ := Result.pair_eq_of_eq_ok hnext' hnext
      obtain ⟨hstanding, hready⟩ := hdecided
      obtain ⟨s', hperform, horderly, hframe', hstore, hwithdrawn⟩ :=
        ((h.passing hpass).keeps hkeeps).withdraw hstanding
          (hframe.isPositive h.positive) hready
      have hcontents : s'.store.contents = s.store.contents := by
        rw [hstore, hkeeps.contents_eq]
      refine Or.inr ⟨s', .withdrawing, ⟨_, _, hnext', hperform⟩, horderly, ?_,
        hframe.trans hframe'⟩
      cases hready with
      | withdraw _ hhas hnot =>
          rw [hkeeps.contents_eq] at hhas
          rw [hkeeps.withdrawn_eq] at hnot hwithdrawn
          exact .withdraw hcontents hhas hnot hwithdrawn
  | @reinstate s₁ _ q todo hkeeps hsuspects =>
      obtain ⟨s₂, step, hnext', hdecided, hframe⟩ := next_spec h.upholds
      obtain ⟨rfl, rfl⟩ := Result.pair_eq_of_eq_ok hnext' hnext
      obtain ⟨hstanding, hready⟩ := hdecided
      obtain ⟨s', hperform, horderly, hframe', hstore, hwithdrawn⟩ :=
        ((h.passing hpass).keeps hkeeps).reinstate hstanding
          (hframe.isPositive h.positive) hsuspects hready
      have hcontents : s'.store.contents = s.store.contents := by
        rw [hstore, hkeeps.contents_eq]
      refine Or.inr ⟨s', .reinstating todo, ⟨_, _, hnext', hperform⟩, horderly, ?_,
        hframe.trans hframe'⟩
      cases progress with
      | idle => exact absurd rfl hpass
      | withdrawing => exact .turn hcontents
      | reinstating todo' =>
          cases hready with
          | reinstate _ hmem =>
              have hq := hmem q List.mem_cons_self
              rw [hkeeps.withdrawn_eq] at hq hwithdrawn
              exact .reinstate hcontents hq hwithdrawn

/-- A run of positive rules stops, or goes on by a move. -/
theorem Orderly.goes (h : s.Orderly progress) :
    (∃ s', s.next progress = .ok (s', none)) ∨
      ∃ s' progress', s.Goes progress s' progress' := by
  by_cases hpass : progress = .idle
  · subst hpass
    exact (goes_of_idle h).imp_left And.right
  · exact goes_of_pass h hpass

end Entail.RunState
