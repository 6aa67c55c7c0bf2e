import Entail.Proofs.Rules.Accounting
import Entail.Proofs.Rules.Interrupted
import Entail.Proofs.Rules.Steps
import Entail.Proofs.Rules.Termination
/-!
# Passes

A pass on its own: it withdraws suspects until none is left, reinstates withdrawn quads until none of
those left is concluded, and then takes these out of the store. It comes to an end whatever the rules,
also if it was cut short and is taken up again.
-/

namespace Entail

namespace RunState

open RuleEngine

variable {s s' s₁ last : RunState} {q : Quad} {round : Round} {progress progress' : Progress}
  {rounds : List Round} {todo : List Quad}

/-! ## One pass -/

/-- Rounds of a pass lead from one state to another. -/
inductive Advances : RunState → Progress → List Round → RunState → Progress → Prop where
  | refl {s : RunState} {progress : Progress} : Advances s progress [] s progress
  | round {s s₁ s₂ s' : RunState} {progress next progress' : Progress} {round : Round}
      {rounds : List Round} :
    s.nextInPass progress = (s₁, some (round, next)) → s₁.perform round = .ok s₂ →
    Advances s₂ next rounds s' progress' → Advances s progress (round :: rounds) s' progress'

/-- The rounds are all that is left of the pass, and the last state is that after its end. -/
inductive Passes : RunState → Progress → List Round → RunState → Prop where
  | finish {s s₁ last : RunState} {progress : Progress} :
    s.nextInPass progress = (s₁, none) → s₁.finalize = .ok last → Passes s progress [] last
  | round {s s₁ s₂ last : RunState} {progress next : Progress} {round : Round}
      {rounds : List Round} :
    s.nextInPass progress = (s₁, some (round, next)) → s₁.perform round = .ok s₂ →
    Passes s₂ next rounds last → Passes s progress (round :: rounds) last

theorem Passes.congr (h : s'.Passes progress' rounds last)
    (heq : s.nextInPass progress = s'.nextInPass progress') : s.Passes progress rounds last := by
  cases h with
  | finish hnext hfinalize =>
      rw [← heq] at hnext
      exact .finish hnext hfinalize
  | round hnext hperform hrest =>
      rw [← heq] at hnext
      exact .round hnext hperform hrest

/-- Carry out the pass within some number of rounds. -/
def pass (s : RunState) (progress : Progress) : Nat → Option (List Round × RunState)
  | 0 => none
  | limit + 1 =>
    match s.nextInPass progress with
    | (s, none) => s.finalize.toOption.map fun last => ([], last)
    | (s, some (round, progress)) =>
      match s.perform round with
      | .error _ => none
      | .ok s => (s.pass progress limit).map fun (rounds, last) => (round :: rounds, last)

theorem passes_of_pass {limit : Nat} (h : s.pass progress limit = some (rounds, last)) :
    s.Passes progress rounds last := by
  induction limit generalizing s progress rounds with
  | zero => cases h
  | succ limit ih =>
      rw [pass] at h
      split at h
      · rename_i s₁ hnext
        cases hfinalize : s₁.finalize with
        | error stopped =>
            rw [hfinalize] at h
            cases h
        | ok s₂ =>
            rw [hfinalize] at h
            obtain ⟨rfl, rfl⟩ := Prod.mk.inj (Option.some.inj h)
            exact .finish hnext hfinalize
      · rename_i s₁ round next hnext
        split at h
        · cases h
        · rename_i s₂ hperform
          obtain ⟨⟨rest, last'⟩, hrest, heq⟩ := Option.map_eq_some_iff.1 h
          obtain ⟨rfl, rfl⟩ := Prod.mk.inj heq
          exact .round hnext hperform (ih hrest)

/-! ## What is withdrawn -/

theorem nextInPass_reinstating (h : s.nextInPass (.reinstating todo) = (s₁, some (round, progress))) :
    s₁ = s ∧ ∃ q rest, round = .reinstate q ∧ progress = .reinstating rest := by
  obtain ⟨rfl, hrevived⟩ := Prod.mk.inj h
  obtain ⟨q, rest, hround, hprogress, _⟩ := nextRevived_eq_some hrevived
  exact ⟨rfl, q, rest, hround, hprogress⟩

theorem nextInPass_withdrawing (h : s.nextInPass .withdrawing = (s₁, some (round, progress))) :
    s₁ = s.nextSuspect.2 ∧ ((∃ q, s.nextSuspect.1 = some q ∧ round = .withdraw q ∧
        progress = .withdrawing) ∨
      ∃ q rest, round = .reinstate q ∧ progress = .reinstating rest) := by
  cases nextInPass_eq_iff.1 h with
  | withdraw _ hfirst => exact ⟨rfl, Or.inl ⟨_, hfirst, rfl, rfl⟩⟩
  | revive _ _ hrevived =>
      obtain ⟨q, rest, hround, hprogress, _⟩ := nextRevived_eq_some hrevived
      exact ⟨rfl, Or.inr ⟨q, rest, hround, hprogress⟩⟩
  | reinstate hprogress _ => cases hprogress

theorem withdrawn_of_withdraw (h : s.perform (.withdraw q) = .ok s') (x : Quad) :
    x ∈ s'.engine.withdrawn ↔ x = q ∨ x ∈ s.engine.withdrawn := by
  rw [(perform_spares h).withdrawn_eq]
  exact OrderedSet.mem_insert.trans (or_congr_left eq_comm)

theorem withdrawn_of_reinstate (h : s.perform (.reinstate q) = .ok s') (x : Quad) :
    x ∈ s'.engine.withdrawn ↔ x ≠ q ∧ x ∈ s.engine.withdrawn := by
  rw [(perform_spares h).withdrawn_eq]
  exact OrderedSet.mem_erase.trans (and_congr_left fun _ => ne_comm)

private theorem Advances.reinstating (h : Advances s (.reinstating todo) rounds s' progress) :
    (∀ x, .withdraw x ∉ rounds) ∧
      ∀ x, x ∈ s'.engine.withdrawn ↔ x ∈ s.engine.withdrawn ∧ .reinstate x ∉ rounds := by
  generalize hfirst : Progress.reinstating todo = first at h
  induction h generalizing todo with
  | refl => simp
  | @round s _ s₂ _ _ _ _ _ rounds hnext hperform _ ih =>
      subst hfirst
      obtain ⟨rfl, q, rest, rfl, rfl⟩ := nextInPass_reinstating hnext
      obtain ⟨hnone, hiff⟩ := ih rfl
      refine ⟨fun x => ?_, fun x => ?_⟩
      · simp [hnone x]
      · rw [hiff, withdrawn_of_reinstate hperform, List.mem_cons, Round.reinstate.injEq, not_or,
          and_comm (a := x ≠ q), and_assoc]

/-- At any point of a pass those quads are withdrawn that were or have been, without those that have
been reinstated. -/
theorem Advances.withdrawn_iff (h : Advances s .withdrawing rounds s' progress) (x : Quad) :
    x ∈ s'.engine.withdrawn ↔
      (x ∈ s.engine.withdrawn ∨ .withdraw x ∈ rounds) ∧ .reinstate x ∉ rounds := by
  generalize hfirst : Progress.withdrawing = first at h
  induction h with
  | refl =>
      rw [and_iff_left List.not_mem_nil, or_iff_left List.not_mem_nil]
  | @round s s₁ s₂ s' _ next progress' round rounds hnext hperform hrest ih =>
      subst hfirst
      obtain ⟨rfl, ⟨q, _, rfl, rfl⟩ | ⟨q, rest, rfl, rfl⟩⟩ := nextInPass_withdrawing hnext
      · have hkept : s.nextSuspect.2.engine.withdrawn = s.engine.withdrawn := rfl
        rw [ih rfl, withdrawn_of_withdraw hperform, hkept, List.mem_cons, List.mem_cons,
          Round.withdraw.injEq, or_iff_right (a := Round.reinstate x = .withdraw q) nofun, or_assoc,
          or_left_comm (b := x ∈ s.engine.withdrawn)]
      · obtain ⟨hnone, hiff⟩ := hrest.reinstating
        have hkept : s.nextSuspect.2.engine.withdrawn = s.engine.withdrawn := rfl
        have hnot : Round.withdraw x ∉ Round.reinstate q :: rounds := by
          simp [hnone x]
        rw [hiff, withdrawn_of_reinstate hperform, hkept, or_iff_left hnot, List.mem_cons,
          Round.reinstate.injEq, not_or, and_comm (a := ¬ x = q), and_assoc]

/-! ## Every pass ends -/

private theorem exists_reinstates (U : Finset Quad) (h : s.Balanced)
    (hU : ∀ x ∈ s.engine.withdrawn, x ∈ U) (hnodup : todo.Nodup)
    (htodo : ∀ x ∈ todo, x ∈ s.engine.withdrawn) :
    ∃ (rs : List Quad) (last : RunState),
      s.Passes (.reinstating todo) (rs.map .reinstate) last ∧ rs.Nodup ∧
      (∀ x ∈ rs, x ∈ s.engine.withdrawn) ∧ last.engine.withdrawn = ∅ ∧
      last.engine.deferred = ∅ := by
  induction hrank : countIn U (· ∈ s.engine.withdrawn) using Nat.strong_induction_on
    generalizing s todo with
  | h rank ih =>
      rcases nextRevived_spec s hnodup htodo with ⟨q, rest, hnext, hready⟩ | ⟨hnext, _⟩
      · obtain ⟨hnodup', hmem⟩ : (q :: rest).Nodup ∧ ∀ x ∈ q :: rest, x ∈ s.engine.withdrawn := by
          cases hready with
          | reinstate hnodup' hmem => exact ⟨hnodup', hmem⟩
        obtain ⟨hq, hrest⟩ := List.nodup_cons.1 hnodup'
        obtain ⟨s₂, hperform, h₂⟩ := h.perform (.reinstate q)
        have hwithdrawn : q ∈ s.engine.withdrawn := hmem q List.mem_cons_self
        have hnext' : s.nextInPass (.reinstating todo) = (s, some (.reinstate q, .reinstating rest)) :=
          congrArg (Prod.mk s) hnext
        -- what is still withdrawn was withdrawn before, and `q` is withdrawn no more
        have hiff := withdrawn_of_reinstate hperform
        have hbefore : ∀ x ∈ s₂.engine.withdrawn, x ∈ s.engine.withdrawn :=
          fun x hx => ((hiff x).1 hx).2
        have hgone : q ∉ s₂.engine.withdrawn := fun hx => ((hiff q).1 hx).1 rfl
        have hlt : countIn U (· ∈ s₂.engine.withdrawn) < rank := by
          rw [← hrank]
          exact countIn_lt hbefore (hU q hwithdrawn) hwithdrawn hgone
        have hrest' : ∀ x ∈ rest, x ∈ s₂.engine.withdrawn := by
          intro x hx
          refine (hiff x).2 ⟨?_, hmem x (List.mem_cons_of_mem q hx)⟩
          rintro rfl
          exact hq hx
        obtain ⟨rs, last, hpasses, hrs, hfrom, hlast⟩ :=
          ih _ hlt h₂ (fun x hx => hU x (hbefore x hx)) hrest hrest' rfl
        have hfresh : q ∉ rs := fun hx => hgone (hfrom q hx)
        refine ⟨q :: rs, last, .round hnext' hperform hpasses, List.nodup_cons.2 ⟨hfresh, hrs⟩,
          ?_, hlast⟩
        intro x hx
        rcases List.mem_cons.1 hx with rfl | hx
        · exact hwithdrawn
        · exact hbefore x (hfrom x hx)
      · obtain ⟨last, hfinalize, _⟩ := h.finalize
        have hnext' : s.nextInPass (.reinstating todo) = (s, none) := congrArg (Prod.mk s) hnext
        refine ⟨[], last, .finish hnext' hfinalize, List.nodup_nil, by simp, ?_⟩
        rw [(finalize_cleared hfinalize).engine_eq]
        exact ⟨rfl, rfl⟩

/-! ## A whole pass -/

/-- What a pass does from beginning to end: it withdraws the quads of `ws`, and then reinstates those
of `rs`. -/
structure Sweeps (s : RunState) (ws rs : List Quad) (last : RunState) : Prop where
  passes : s.Passes .withdrawing (ws.map .withdraw ++ rs.map .reinstate) last
  withdraws_nodup : ws.Nodup
  /-- What is withdrawn is stored, and was not withdrawn before. -/
  withdraws : ∀ q ∈ ws, s.store.contents.Has q ∧ q ∉ s.engine.withdrawn
  reinstates_nodup : rs.Nodup
  /-- What is reinstated was withdrawn before or has been. -/
  reinstates : ∀ q ∈ rs, q ∈ s.engine.withdrawn ∨ q ∈ ws
  withdrawn_eq : last.engine.withdrawn = ∅
  deferred_eq : last.engine.deferred = ∅

private theorem Sweeps.cons {s₂ : RunState} {ws rs : List Quad} (h : s₂.Sweeps ws rs last)
    (hnext : s.nextInPass .withdrawing = (s₁, some (.withdraw q, .withdrawing)))
    (hperform : s₁.perform (.withdraw q) = .ok s₂) (hhas : s.store.contents.Has q)
    (hq : q ∉ s.engine.withdrawn) (hstore : s₂.store = s.store)
    (hiff : ∀ x, x ∈ s₂.engine.withdrawn ↔ x = q ∨ x ∈ s.engine.withdrawn) :
    s.Sweeps (q :: ws) rs last where
  passes := .round hnext hperform h.passes
  withdraws_nodup := by
    have hfresh : q ∉ ws := fun hx => (h.withdraws q hx).2 ((hiff q).2 (Or.inl rfl))
    exact List.nodup_cons.2 ⟨hfresh, h.withdraws_nodup⟩
  withdraws := by
    intro x hx
    rcases List.mem_cons.1 hx with rfl | hx
    · exact ⟨hhas, hq⟩
    · obtain ⟨hx, hnot⟩ := h.withdraws x hx
      rw [hstore] at hx
      rw [hiff, not_or] at hnot
      exact ⟨hx, hnot.2⟩
  reinstates_nodup := h.reinstates_nodup
  reinstates := by
    intro x hx
    rcases h.reinstates x hx with hx | hx
    · rcases (hiff x).1 hx with rfl | hx
      · exact Or.inr List.mem_cons_self
      · exact Or.inl hx
    · exact Or.inr (List.mem_cons_of_mem _ hx)
  withdrawn_eq := h.withdrawn_eq
  deferred_eq := h.deferred_eq

private theorem exists_sweeps_within (U : Finset Quad) (h : s.Balanced)
    (hU : ∀ x, s.store.contents.Has x → x ∈ U) : ∃ ws rs last, s.Sweeps ws rs last := by
  induction hrank : countIn U (fun x => s.store.contents.Has x ∧ x ∉ s.engine.withdrawn)
    using Nat.strong_induction_on generalizing s with
  | h rank ih =>
      have h₁ := h.nextSuspect
      have hsame : s.nextSuspect.2.engine.withdrawn = s.engine.withdrawn ∧
          s.nextSuspect.2.store = s.store := ⟨rfl, rfl⟩
      cases hsuspect : s.nextSuspect with
      | mk first s₁ =>
          rw [hsuspect] at h₁ hsame
          obtain ⟨hwithdrawn, hstore⟩ := hsame
          cases first with
          | none =>
              have hmem : ∀ x ∈ s₁.engine.withdrawn, x ∈ s₁.engine.withdrawn.toList.toFinset :=
                fun x hx => List.mem_toFinset.2 (OrderedSet.mem_toList_iff.2 hx)
              obtain ⟨rs, last, hpasses, hnodup, hfrom, hlast, hlast'⟩ :=
                exists_reinstates _ h₁ hmem List.nodup_nil (by simp)
              have hnext : s.nextInPass .withdrawing = s₁.nextInPass (.reinstating []) := by
                simp only [nextInPass, hsuspect]
              rw [hwithdrawn] at hfrom
              refine ⟨[], rs, last, ?_⟩
              exact {
                passes := hpasses.congr hnext
                withdraws_nodup := List.nodup_nil
                withdraws := by simp
                reinstates_nodup := hnodup
                reinstates := fun x hx => Or.inl (hfrom x hx)
                withdrawn_eq := hlast
                deferred_eq := hlast' }
          | some q =>
              obtain ⟨_, hhas, hq⟩ := nextSuspect_eq_some (congrArg Prod.fst hsuspect)
              obtain ⟨s₂, hperform, h₂⟩ := h₁.perform (.withdraw q)
              have hiff := withdrawn_of_withdraw hperform
              rw [hwithdrawn] at hiff
              have hstore₂ : s₂.store = s.store := by
                rw [← hstore]
                exact (perform_spares hperform).store_eq rfl
              have hlt : countIn U (fun x => s₂.store.contents.Has x ∧ x ∉ s₂.engine.withdrawn) <
                  rank := by
                rw [← hrank, hstore₂]
                refine countIn_lt (fun x hx => ?_) (hU q hhas) ⟨hhas, hq⟩ fun hx => ?_
                · exact ⟨hx.1, fun hw => hx.2 ((hiff x).2 (Or.inr hw))⟩
                · exact hx.2 ((hiff q).2 (Or.inl rfl))
              have hU₂ : ∀ x, s₂.store.contents.Has x → x ∈ U := by
                rw [hstore₂]
                exact hU
              obtain ⟨ws, rs, last, hsweeps⟩ := ih _ hlt h₂ hU₂ rfl
              have hnext : s.nextInPass .withdrawing =
                  (s₁, some (.withdraw q, .withdrawing)) := by
                simp only [nextInPass, hsuspect]
              exact ⟨q :: ws, rs, last, hsweeps.cons hnext hperform hhas hq hstore₂ hiff⟩

theorem Balanced.exists_sweeps (h : s.Balanced) : ∃ ws rs last, s.Sweeps ws rs last := by
  refine exists_sweeps_within s.store.contents.toList.toFinset h fun x hx => ?_
  exact List.mem_toFinset.2 (OrderedSet.mem_toList_iff.2 hx)

/-! ## Passes within runs -/

/-- A run within a pass carries out the rounds of the pass, and goes on after it. -/
theorem Passes.run_eq (h : s.Passes progress rounds last) (hprogress : progress ≠ .idle)
    (limit : Nat) : s.run progress (rounds.length + limit) = last.run .idle limit := by
  induction h with
  | @finish s s₁ last progress hnext hfinalize =>
      have hidle := (finalize_cleared hfinalize).isRederiving_eq
      have hlast : last.next .idle = .ok last.nextOutside := if_pos ⟨rfl, hidle⟩
      have hfirst : s.next progress = .ok last.nextOutside :=
        next_eq_ok_iff.2 (.finish (fun hx => hprogress hx.1) hnext hfinalize rfl)
      rw [List.length_nil, Nat.zero_add, run, run, hfirst, hlast]
  | @round s s₁ s₂ last progress next' round rounds hnext hperform _ ih =>
      have hfirst : s.next progress = .ok (s₁, some (round, next')) :=
        next_eq_ok_iff.2 (.inPass (fun hx => hprogress hx.1) hnext)
      have hlength : (round :: rounds).length + limit = rounds.length + limit + 1 := by
        rw [List.length_cons]
        omega
      rw [hlength, run, hfirst, Result.ok_bind]
      simp only [hperform, Result.ok_bind]
      exact ih (nextInPass_eq_some hnext).1

theorem Reaches.balanced {n : Nat} (h : s.Reaches n s') (hs : s.Balanced) : s'.Balanced := by
  induction h with
  | refl => exact hs
  | drain _ ih => exact ih.takeChanges
  | look _ ih => exact ih.nextSuspect
  | finish _ hfinalize ih => exact ih.of_finalize hfinalize
  | perform _ _ hperform ih => exact ih.of_perform hperform

end RunState

/-! ## Sessions -/

open RuleEngine RunState

theorem Turn.balanced_of_opening {t : Turn} {s : RunState}
    (h : (t.engine.begin t.store).Balanced) (hopening : t.opening = some s) : s.Balanced := by
  rcases t.outcome_begins h with ⟨hnone, _⟩ | ⟨_, s₀, hopening', _, hbegins⟩
  · rw [hnone] at hopening
    cases hopening
  · rw [hopening'] at hopening
    obtain rfl := Option.some_inj.1 hopening
    exact hbegins.balanced h

namespace Session

/-- Whatever the rules and the requests, and whatever others write: from any state that the run of a
request reaches, also one that takes up a pass which was cut short, a pass comes to an end. It
withdraws quads that are stored, and none of them twice, and then reinstates withdrawn quads, none of
them twice either and withdrawing no other; in the end nothing is withdrawn or held back. This is what
a run does that is given enough rounds. -/
theorem pass_ends (config : Config) (ev : Evaluator) (stored : List (Change Quad))
    (feed : ChangeFeed) (events : List Event) (request : Request) {s₀ s : RunState} {n : Nat} :
    let opened := RuleEngine.new config ev ⟨Contents.empty.replay stored, feed⟩
    let session := events.foldl carryOut ⟨opened.1, opened.2, []⟩
    Turn.opening ⟨session.engine, session.store, request⟩ = some s₀ → s₀.Reaches n s →
    ∃ ws rs last, s.Sweeps ws rs last ∧
      (∀ rounds s' progress, s.Advances .withdrawing rounds s' progress → ∀ q,
        q ∈ s'.engine.withdrawn ↔
          (q ∈ s.engine.withdrawn ∨ .withdraw q ∈ rounds) ∧ .reinstate q ∉ rounds) ∧
      ∀ limit, s.run .withdrawing (ws.length + rs.length + limit) = last.run .idle limit := by
  intro opened session hopening hreaches
  have hsession : session.IsBalanced := (isBalanced_new config ev stored feed).run events
  have hs := hreaches.balanced (Turn.balanced_of_opening hsession.balanced hopening)
  obtain ⟨ws, rs, last, hsweeps⟩ := hs.exists_sweeps
  refine ⟨ws, rs, last, hsweeps, fun _ _ _ hadvances => hadvances.withdrawn_iff, fun limit => ?_⟩
  have hrun := hsweeps.passes.run_eq nofun limit
  rwa [List.length_append, List.length_map, List.length_map] at hrun

/-- The pass that a limit cut short, with a quad withdrawn and a suspect left. -/
theorem pass_ends_of_interrupted :
    let s := interruptedSession.engine.begin interruptedSession.store
    s.engine.withdrawn ≠ ∅ ∧ s.engine.suspects ≠ ∅ ∧
      ∃ ws rs last, s.Sweeps ws rs last ∧
        (∀ rounds s' progress, s.Advances .withdrawing rounds s' progress → ∀ q,
          q ∈ s'.engine.withdrawn ↔
            (q ∈ s.engine.withdrawn ∨ .withdraw q ∈ rounds) ∧ .reinstate q ∉ rounds) ∧
        ∀ limit, s.run .withdrawing (ws.length + rs.length + limit) = last.run .idle limit := by
  intro s
  obtain ⟨hwithdrawn, hsuspects⟩ : s.engine.withdrawn ≠ ∅ ∧ s.engine.suspects ≠ ∅ := by
    decide +kernel
  have hends := pass_ends { Config.default with maxRounds := 3 } .standard [] .empty
    [.request (.add (entail "direct" ["A"] "B")), .request (.add (entail "loop" ["B"] "B")),
      .mutate (.insert (stating "x" "A")), .request .flush,
      .mutate (.insert (stating "y" "A")), .request .flush,
      .mutate (.apply ⟨[], [stating "x" "A", stating "y" "A"]⟩), .request .flush] .flush
    (s := s) rfl .refl
  exact ⟨hwithdrawn, hsuspects, hends⟩

end Session

end Entail
