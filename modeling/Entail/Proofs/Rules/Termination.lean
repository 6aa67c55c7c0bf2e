import Entail.Proofs.Rules.Moves
import Entail.Proofs.Rules.Universe
import Mathlib.Data.Finset.Card
import Mathlib.Data.Prod.Lex
/-!
# Termination

A run of positive rules without computed terms ends if, at some point, the changes that wait are all
gains or all losses. From then on gains fill the store up, and losses and passes empty it, within a
finite set of quads.
-/

namespace Entail.RunState

open RuleEngine

variable {s s' : RunState} {progress progress' : Progress} {U : Finset Quad}

/-- With enough rounds the run ends. -/
def Terminates (s : RunState) (progress : Progress) : Prop :=
  ∃ bound, ∀ rounds, bound ≤ rounds → ∃ s', s.run progress rounds = .ok s'

theorem Terminates.of_stop (h : s.next progress = .ok (s', none)) : s.Terminates progress := by
  refine ⟨0, fun rounds _ => ⟨s', ?_⟩⟩
  rw [run, h]
  rfl

theorem Terminates.of_goes (h : s.Goes progress s' progress') (hs : s'.Terminates progress') :
    s.Terminates progress := by
  obtain ⟨bound, hbound⟩ := hs
  refine ⟨bound + 1, fun rounds hrounds => ?_⟩
  obtain ⟨n, rfl⟩ : ∃ n, rounds = n + 1 := ⟨rounds - 1, by omega⟩
  rw [h.run_eq]
  exact hbound n (by omega)

/-! ## Measures -/

section Measures

open scoped Classical in
/-- How many quads of `U` satisfy `P`. -/
noncomputable def countIn (U : Finset Quad) (P : Quad → Prop) : Nat :=
  (U.filter P).card

variable {P Q : Quad → Prop} {q : Quad}

theorem countIn_le (h : ∀ x, P x → Q x) : countIn U P ≤ countIn U Q := by
  classical
  exact Finset.card_le_card (Finset.monotone_filter_right U fun x _ => h x)

theorem countIn_lt (h : ∀ x, P x → Q x) (hU : q ∈ U) (hq : Q q) (hnot : ¬ P q) :
    countIn U P < countIn U Q := by
  classical
  refine Finset.card_lt_card ((Finset.ssubset_iff_of_subset ?_).2 ⟨q, ?_, fun hmem => ?_⟩)
  · exact Finset.monotone_filter_right U fun x _ => h x
  · exact Finset.mem_filter.2 ⟨hU, hq⟩
  · exact hnot (Finset.mem_filter.1 hmem).2

end Measures

/-- What is left to lose: quads of the store, then changes to propagate, quads to withdraw and quads
to reinstate. -/
noncomputable def rank (U : Finset Quad) (s : RunState) (progress : Progress) :
    Nat ×ₗ Nat ×ₗ Nat :=
  let stored := countIn U s.store.contents.Has
  match progress with
  | .idle => toLex (stored, toLex (2, (s.engine.queue s.store).length))
  | .withdrawing =>
    toLex (stored, toLex (1, countIn U fun x => s.store.contents.Has x ∧ x ∉ s.engine.withdrawn))
  | .reinstating _ => toLex (stored, toLex (0, countIn U fun x => x ∈ s.engine.withdrawn))

/-- What is left to gain: quads that the store does not have, then changes to propagate. -/
noncomputable def gap (U : Finset Quad) (s : RunState) : Nat ×ₗ Nat :=
  toLex (countIn U fun x => ¬ s.store.contents.Has x, (s.engine.queue s.store).length)

/-! ## One side -/

/-- With only losses to propagate, no move stores a quad, and only losses come to wait. -/
theorem Moves.losing (h : s.Moves progress s' progress') (hs : s'.Orderly progress')
    (hloss : ∀ c ∈ s.engine.queue s.store, c.isGain = false) :
    (∀ c ∈ s'.engine.queue s'.store, c.isGain = false) ∧
      ∀ x, s'.store.contents.Has x → s.store.contents.Has x := by
  have hpass : progress' ≠ .idle → ∀ c ∈ s'.engine.queue s'.store, c.isGain = false := by
    intro hne c hc
    rw [(hs.passing hne).queue_eq] at hc
    exact absurd hc List.not_mem_nil
  cases h with
  | gain hqueue _ _ _ _ _ =>
      rw [hqueue] at hloss
      cases hloss _ List.mem_cons_self
  | loss hqueue hqueue' hall hshrinks _ =>
      refine ⟨fun c hc => ?_, hshrinks⟩
      rw [hqueue'] at hc
      rcases List.mem_append.1 hc with hc | hc
      · rw [hqueue] at hloss
        exact hloss c (List.mem_cons_of_mem _ hc)
      · exact hall c hc
  | begin hsame =>
      rw [hsame]
      exact ⟨hpass nofun, fun _ hx => hx⟩
  | withdraw hsame _ _ _ =>
      rw [hsame]
      exact ⟨hpass nofun, fun _ hx => hx⟩
  | turn hsame =>
      rw [hsame]
      exact ⟨hpass nofun, fun _ hx => hx⟩
  | reinstate hsame _ _ =>
      rw [hsame]
      exact ⟨hpass nofun, fun _ hx => hx⟩
  | finish _ hshrinks _ hlosses => exact ⟨hlosses, hshrinks⟩

theorem Moves.gaining (h : s.Moves .idle s' .idle)
    (hgain : ∀ c ∈ s.engine.queue s.store, c.isGain = true) :
    (∀ c ∈ s'.engine.queue s'.store, c.isGain = true) ∧
      ∀ x, s.store.contents.Has x → s'.store.contents.Has x := by
  cases h with
  | loss hqueue _ _ _ _ =>
      rw [hqueue] at hgain
      cases hgain _ List.mem_cons_self
  | finish hpass _ _ _ => exact absurd rfl hpass
  | gain hqueue hqueue' hall hgrows _ _ =>
      refine ⟨fun c hc => ?_, hgrows⟩
      rw [hqueue'] at hc
      rcases List.mem_append.1 hc with hc | hc
      · rw [hqueue] at hgain
        exact hgain c (List.mem_cons_of_mem _ hc)
      · exact hall c hc

theorem Moves.rank_lt (h : s.Moves progress s' progress')
    (hloss : ∀ c ∈ s.engine.queue s.store, c.isGain = false)
    (hU : ∀ x, s.store.contents.Has x → x ∈ U)
    (hwithdrawn : ∀ x ∈ s.engine.withdrawn, s.store.contents.Has x) :
    rank U s' progress' < rank U s progress := by
  -- a move that takes a quad from the store, whatever else it does
  have hlost : (∀ x, s'.store.contents.Has x → s.store.contents.Has x) →
      (∃ x, s.store.contents.Has x ∧ ¬ s'.store.contents.Has x) →
      countIn U s'.store.contents.Has < countIn U s.store.contents.Has := by
    rintro hshrinks ⟨x, hx, hnot⟩
    exact countIn_lt hshrinks (hU x hx) hx hnot
  cases h with
  | gain hqueue _ _ _ _ _ =>
      rw [hqueue] at hloss
      cases hloss _ List.mem_cons_self
  | loss hqueue hqueue' _ hshrinks hfewer =>
      refine Prod.Lex.toLex_lt_toLex'.2 ⟨countIn_le hshrinks, fun heq => ?_⟩
      refine Prod.Lex.toLex_lt_toLex'.2 ⟨Nat.le_refl 2, fun _ => ?_⟩
      rcases hfewer with rfl | hfewer
      · change (s'.engine.queue s'.store).length < (s.engine.queue s.store).length
        rw [hqueue', hqueue, List.append_nil, List.length_cons]
        omega
      · exact absurd heq (Nat.ne_of_lt (hlost hshrinks hfewer))
  | begin hsame =>
      refine Prod.Lex.toLex_lt_toLex'.2 ⟨Nat.le_of_eq (by rw [hsame]), fun _ => ?_⟩
      exact Prod.Lex.toLex_lt_toLex.2 (Or.inl (Nat.lt_succ_self 1))
  | @withdraw _ q hsame hhas hnot hinsert =>
      have hmem : ∀ x, x ∈ s'.engine.withdrawn ↔ q = x ∨ x ∈ s.engine.withdrawn := by
        intro x
        rw [hinsert, OrderedSet.mem_insert]
      refine Prod.Lex.toLex_lt_toLex'.2 ⟨Nat.le_of_eq (by rw [hsame]), fun _ => ?_⟩
      refine Prod.Lex.toLex_lt_toLex'.2 ⟨Nat.le_refl 1, fun _ => ?_⟩
      refine countIn_lt (fun x hx => ?_) (hU q hhas) ⟨hhas, hnot⟩ fun hx => ?_
      · rw [hsame] at hx
        exact ⟨hx.1, fun hw => hx.2 ((hmem x).2 (Or.inr hw))⟩
      · exact hx.2 ((hmem q).2 (Or.inl rfl))
  | turn hsame =>
      refine Prod.Lex.toLex_lt_toLex'.2 ⟨Nat.le_of_eq (by rw [hsame]), fun _ => ?_⟩
      exact Prod.Lex.toLex_lt_toLex.2 (Or.inl (Nat.lt_succ_self 0))
  | @reinstate _ q _ _ hsame hq herase =>
      have hmem : ∀ x, x ∈ s'.engine.withdrawn ↔ q ≠ x ∧ x ∈ s.engine.withdrawn := by
        intro x
        rw [herase, OrderedSet.mem_erase]
      refine Prod.Lex.toLex_lt_toLex'.2 ⟨Nat.le_of_eq (by rw [hsame]), fun _ => ?_⟩
      refine Prod.Lex.toLex_lt_toLex'.2 ⟨Nat.le_refl 0, fun _ => ?_⟩
      refine countIn_lt (fun x hx => ((hmem x).1 hx).2) (hU q (hwithdrawn q hq)) hq fun hx => ?_
      exact ((hmem q).1 hx).1 rfl
  | @finish _ _ hpass hshrinks hfewer _ =>
      have hlt := hlost hshrinks hfewer
      cases progress with
      | idle => exact absurd rfl hpass
      | withdrawing => exact Prod.Lex.toLex_lt_toLex.2 (Or.inl hlt)
      | reinstating todo => exact Prod.Lex.toLex_lt_toLex.2 (Or.inl hlt)

private theorem terminates_below (U : Finset Quad) (h : s.Orderly progress)
    (hloss : ∀ c ∈ s.engine.queue s.store, c.isGain = false)
    (hU : ∀ x, s.store.contents.Has x → x ∈ U) : s.Terminates progress := by
  induction hrank : rank U s progress using WellFoundedLT.induction generalizing s progress with
  | ind bound ih =>
      rcases h.goes with ⟨s', hstop⟩ | ⟨s', progress', hgoes⟩
      · exact .of_stop hstop
      · obtain ⟨hloss', hshrinks⟩ := hgoes.moves.losing hgoes.orderly hloss
        have hlt := hgoes.moves.rank_lt hloss hU h.upholds.standing.ledger.hidden_stored
        exact .of_goes hgoes (ih _ (hrank ▸ hlt) hgoes.orderly hloss'
          (fun x hx => hU x (hshrinks x hx)) rfl)

theorem Orderly.terminates_of_losses (h : s.Orderly progress)
    (hloss : ∀ c ∈ s.engine.queue s.store, c.isGain = false) : s.Terminates progress := by
  classical
  refine terminates_below s.store.contents.quads.toList.toFinset h hloss fun x hx => ?_
  rw [List.mem_toFinset, OrderedSet.mem_toList_iff]
  exact hx

/-! ## Gains -/

/-- The quads of `U` yield nothing that is not in `U`. -/
def IsClosedUnder (s : RunState) (U : Finset Quad) : Prop :=
  ∀ r, s.engine.Runs r → ∀ held : Quad → Prop, (∀ x, held x → x ∈ U) → ∀ t q,
    r.condition.IsOutput s.engine.evaluator held t →
    r.Concludes s.engine.evaluator s.engine.graph t q → q ∈ U

private theorem terminates_within (h : s.Orderly .idle)
    (hgain : ∀ c ∈ s.engine.queue s.store, c.isGain = true) (hclosed : s.IsClosedUnder U)
    (hU : ∀ x, s.store.contents.Has x → x ∈ U) : s.Terminates .idle := by
  induction hgap : gap U s using WellFoundedLT.induction generalizing s with
  | ind bound ih =>
      rcases h.goes with ⟨s', hstop⟩ | ⟨s', progress', hgoes⟩
      · exact .of_stop hstop
      · refine .of_goes hgoes ?_
        have hmoves := hgoes.moves
        cases hmoves with
        | loss hqueue _ _ _ _ =>
            rw [hqueue] at hgain
            cases hgain _ List.mem_cons_self
        | finish hpass _ _ _ => exact absurd rfl hpass
        | begin _ =>
            refine hgoes.orderly.terminates_of_losses fun c hc => ?_
            rw [(hgoes.orderly.passing nofun).queue_eq] at hc
            exact absurd hc List.not_mem_nil
        | gain hqueue hqueue' _ hgrows hfrom hmore =>
            obtain ⟨hgain', _⟩ := hgoes.moves.gaining hgain
            rw [hqueue] at hgain
            have hrest := fun c hc => hgain c (List.mem_cons_of_mem _ hc)
            have hU' : ∀ x, s'.store.contents.Has x → x ∈ U := by
              intro x hx
              rcases hfrom hrest x hx with hx | ⟨r, t, hruns, hout, hc⟩
              · exact hU x hx
              · exact hclosed r hruns _ hU t x hout hc
            have hclosed' : s'.IsClosedUnder U := by
              intro r hruns
              rw [hgoes.frame.evaluator_eq, hgoes.frame.graph_eq]
              exact hclosed r (hgoes.frame.runs_iff.1 hruns)
            have hfewer : ∀ x, ¬ s'.store.contents.Has x → ¬ s.store.contents.Has x :=
              fun x hx hhas => hx (hgrows x hhas)
            have hlt : gap U s' < gap U s := by
              refine Prod.Lex.toLex_lt_toLex'.2 ⟨countIn_le hfewer, fun heq => ?_⟩
              rcases hmore with rfl | ⟨x, hx, hx'⟩
              · change (s'.engine.queue s'.store).length < (s.engine.queue s.store).length
                rw [hqueue', hqueue, List.append_nil, List.length_cons]
                omega
              · refine absurd heq (Nat.ne_of_lt ?_)
                exact countIn_lt hfewer (hU' x hx') hx fun hnot => hnot hx'
            exact ih _ (hgap ▸ hlt) hgoes.orderly hgain' hclosed' hU' rfl

/-- All rules are plain. -/
def IsPlain (s : RunState) : Prop :=
  ∀ id r, s.engine.rule? id = some r → r.IsPlain

theorem Orderly.terminates_of_gains (h : s.Orderly .idle) (hplain : s.IsPlain)
    (hgain : ∀ c ∈ s.engine.queue s.store, c.isGain = true) : s.Terminates .idle := by
  classical
  let nodes := s.engine.graph :: (s.store.contents.quads.toList.flatMap Quad.nodes ++
    s.engine.activeRules.flatMap Rule.nodes)
  have hmem : ∀ q, q ∈ (quadsOver nodes).toFinset ↔ q ∈ quadsOver nodes :=
    fun q => List.mem_toFinset
  refine terminates_within (U := (quadsOver nodes).toFinset) h hgain ?_ fun x hx => ?_
  · intro r hruns held hheld t q hout hc
    rw [hmem]
    have hactive := h.upholds.standing.ledger.tracks.mem_activeRules_iff.2 hruns
    refine (hplain r.id r hruns.2).mem_quadsOver List.mem_cons_self (fun n hn => ?_)
      (fun x hx => (hmem x).1 (hheld x hx)) hout hc
    exact List.mem_cons_of_mem _
      (List.mem_append_right _ (List.mem_flatMap.2 ⟨r, hactive, hn⟩))
  · rw [hmem, mem_quadsOver_iff]
    intro n hn
    refine List.mem_cons_of_mem _ (List.mem_append_left _ (List.mem_flatMap.2 ⟨x, ?_, hn⟩))
    exact OrderedSet.mem_toList_iff.2 hx

end Entail.RunState
