import Entail.Proofs.Rules.Limits
import Entail.Proofs.Rules.Termination
/-!
# Convergence

Whether a flush is answered if only its limit on rounds is high enough. With plain rules it is just in
case the run gets to a point where the changes that wait are all gains or all losses. A gain and the
loss that follows it may go round a cycle of rules for ever.
-/

namespace Entail

/-- The changes are all gains, or all losses. -/
def IsOneSided (changes : List (Change Quad)) : Prop :=
  (∀ c ∈ changes, c.isGain = true) ∨ ∀ c ∈ changes, c.isGain = false

instance (changes : List (Change Quad)) : Decidable (IsOneSided changes) :=
  inferInstanceAs (Decidable ((∀ c ∈ changes, c.isGain = true) ∨ ∀ c ∈ changes, c.isGain = false))

namespace RunState

open RuleEngine

variable {s s' : RunState} {progress progress' : Progress} {rounds : Nat}

/-! ## Runs that end -/

theorem Orderly.terminates (h : s.Orderly progress) (hplain : s.IsPlain)
    (hside : IsOneSided (s.engine.queue s.store)) : s.Terminates progress := by
  rcases hside with hgain | hloss
  · by_cases hidle : progress = .idle
    · subst hidle
      exact h.terminates_of_gains hplain hgain
    · refine h.terminates_of_losses fun c hc => ?_
      rw [(h.passing hidle).queue_eq] at hc
      exact absurd hc List.not_mem_nil
  · exact h.terminates_of_losses hloss

/-- The state in which a run ends or is out of rounds. -/
def last (s : RunState) (progress : Progress) (rounds : Nat) : RunState :=
  match s.run progress rounds with
  | .ok s => s
  | .error stopped => stopped.state

theorem last_zero {step : Option (Round × Progress)} (h : s.next progress = .ok (s', step)) :
    s.last progress 0 = s' := by
  rw [last, run, h]
  cases step with
  | none => rfl
  | some step => rfl

theorem last_of_stop (h : s.next progress = .ok (s', none)) : s.last progress rounds = s' := by
  rw [last, run, h]
  rfl

theorem Goes.last_eq (h : s.Goes progress s' progress') :
    s.last progress (rounds + 1) = s'.last progress' rounds := by
  rw [last, h.run_eq, last]

theorem Orderly.terminates_of_last (h : s.Orderly progress) (hplain : s.IsPlain)
    (hside : IsOneSided
      ((s.last progress rounds).engine.queue (s.last progress rounds).store)) :
    s.Terminates progress := by
  induction rounds generalizing s progress with
  | zero =>
      by_cases hidle : progress = .idle
      · subst hidle
        obtain ⟨s₁, step, hnext, _⟩ := next_spec h.upholds
        cases step with
        | none => exact .of_stop hnext
        | some step =>
            rw [last_zero hnext, (h.outside hnext).keeps.queue_eq] at hside
            exact h.terminates hplain hside
      · refine h.terminates hplain (Or.inl fun c hc => ?_)
        rw [(h.passing hidle).queue_eq] at hc
        exact absurd hc List.not_mem_nil
  | succ rounds ih =>
      rcases h.goes with ⟨s', hstop⟩ | ⟨s', progress', hgoes⟩
      · exact .of_stop hstop
      · have hplain' : s'.IsPlain := by
          intro id r hr
          rw [hgoes.frame.rule_eq] at hr
          exact hplain id r hr
        rw [hgoes.last_eq] at hside
        exact .of_goes hgoes (ih hgoes.orderly hplain' hside)

/-! ## Runs that recur -/

/-- What some rounds make of the state, if there are so many. -/
def rounds? (s : RunState) (progress : Progress) : Nat → Option (RunState × Progress)
  | 0 => some (s, progress)
  | n + 1 =>
    match s.next progress with
    | .ok (s, some (round, progress)) =>
      match s.perform round with
      | .ok s => s.rounds? progress n
      | .error _ => none
    | _ => none

/-- The states agree in all that rounds depend on, and change. -/
def agrees (s s' : RunState) : Bool :=
  s.engine.subscription = s'.engine.subscription ∧ s.engine.slots = s'.engine.slots ∧
    s.engine.support = s'.engine.support ∧ s.engine.pending = s'.engine.pending ∧
    s.engine.suspects = s'.engine.suspects ∧ s.engine.withdrawn = s'.engine.withdrawn ∧
    s.engine.deferred = s'.engine.deferred ∧ s.store = s'.store

/-- After some rounds, and again after some more, the run is at the same point. -/
def recurs (s : RunState) (progress : Progress) (rounds period : Nat) : Bool :=
  match s.rounds? progress rounds with
  | none => false
  | some (s, progress) =>
    match s.rounds? progress period with
    | none => false
    | some (s', progress') => progress = progress' && s.agrees s'

theorem alike_of_agrees (h : s.agrees s' = true) (hframe : s.Frame s') : s.Alike s' := by
  obtain ⟨hsubscription, hslots, hsupport, hpending, hsuspects, hwithdrawn, hdeferred, hstore⟩ :=
    of_decide_eq_true h
  obtain ⟨⟨config, ev, subscription, slots, support, pending, suspects, withdrawn, deferred⟩, σ,
    report⟩ := s'
  obtain rfl : config = s.engine.config := hframe.config_eq
  obtain rfl : ev = s.engine.evaluator := hframe.evaluator_eq
  subst hsubscription hslots hsupport hpending hsuspects hwithdrawn hdeferred hstore
  exact ⟨s.engine.config.maxRounds, report, rfl⟩

theorem rounds?_spec {k : Nat} (hs : s.Upholds False progress)
    (h : s.rounds? progress k = some (s', progress')) :
    s'.Upholds False progress' ∧ s.Frame s' ∧
      (∀ n, s.run progress (n + k) = s'.run progress' n) ∧
      ∀ n < k, ∀ t, s.run progress n ≠ .ok t := by
  induction k generalizing s progress with
  | zero =>
      obtain ⟨rfl, rfl⟩ := Prod.mk.inj (Option.some_inj.1 h)
      exact ⟨hs, .refl s, fun _ => rfl, fun n hn => absurd hn (Nat.not_lt_zero n)⟩
  | succ k ih =>
      obtain ⟨s₁, step, hnext, hdecided, hframe⟩ := next_spec hs
      rw [rounds?, hnext] at h
      cases step with
      | none => cases h
      | some step =>
          obtain ⟨round, progress₁⟩ := step
          obtain ⟨s₂, hperform, hupholds, hframe₂⟩ :=
            perform_spec hdecided.1 hdecided.2 False.elim
          simp only [hperform] at h
          obtain ⟨hupholds', hframe', hrun, hshort⟩ := ih hupholds h
          have hsucc : ∀ n, s.run progress (n + 1) = s₂.run progress₁ n := by
            intro n
            rw [run, hnext, Result.ok_bind]
            simp only [hperform, Result.ok_bind]
          refine ⟨hupholds', hframe.trans (hframe₂.trans hframe'), fun n => ?_, fun n hn => ?_⟩
          · rw [← Nat.add_assoc, hsucc, hrun]
          · cases n with
            | zero =>
                intro t ht
                rw [run, hnext, Result.ok_bind] at ht
                cases ht
            | succ n =>
                rw [hsucc]
                exact hshort n (by omega)

theorem not_ok_of_recurs {period : Nat} (hs : s.Upholds False progress)
    (h : s.recurs progress rounds period = true) (hperiod : 0 < period) (n : Nat) (t : RunState) :
    s.run progress n ≠ .ok t := by
  unfold recurs at h
  cases hfirst : s.rounds? progress rounds with
  | none =>
      rw [hfirst] at h
      cases h
  | some first =>
      obtain ⟨s₁, progress₁⟩ := first
      obtain ⟨hs₁, _, hrun₁, hshort₁⟩ := rounds?_spec hs hfirst
      simp only [hfirst] at h
      cases hsecond : s₁.rounds? progress₁ period with
      | none =>
          rw [hsecond] at h
          cases h
      | some second =>
          obtain ⟨s₂, progress₂⟩ := second
          simp only [hsecond, Bool.and_eq_true, decide_eq_true_eq] at h
          obtain ⟨rfl, hagrees⟩ := h
          obtain ⟨hs₂, hframe, hrun₂, hshort₂⟩ := rounds?_spec hs₁ hsecond
          have halike := alike_of_agrees hagrees hframe
          -- each time round the cycle takes rounds away, so a run from the cycle is never long enough
          have hcycle : ∀ n t, s₁.run progress₁ n ≠ .ok t := by
            intro n
            induction n using Nat.strongRecOn with
            | ind n ih =>
                intro t ht
                by_cases hlt : n < period
                · exact hshort₂ n hlt t ht
                · have hback : s₁.run progress₁ n = s₂.run progress₁ (n - period) := by
                    rw [← hrun₂, Nat.sub_add_cancel (by omega)]
                  rw [hback] at ht
                  rcases halike.run hs₁ (n - period) with ⟨t', _, ht', _⟩ | ⟨_, _, _, herror, _⟩
                  · exact ih (n - period) (by omega) t' ht'
                  · rw [herror] at ht
                    cases ht
          intro ht
          by_cases hlt : n < rounds
          · exact hshort₁ n hlt t ht
          · have hlater : s.run progress n = s₁.run progress₁ (n - rounds) := by
              rw [← hrun₁, Nat.sub_add_cancel (by omega)]
            rw [hlater] at ht
            exact hcycle (n - rounds) t ht

end RunState

/-! ## Flushes -/

open RuleEngine RunState

variable {config : Config} {ev : Evaluator} {e : RuleEngine} {σ : Store} {turns : List Turn}
  {mutations : List Mutation}

/-- Every limit on rounds that is high enough lets a flush be answered. -/
def RuleEngine.Converges (e : RuleEngine) (σ : Store) : Prop :=
  ∃ bound, ∀ limit, bound ≤ limit → ∃ report, ((e.limited limit).flush σ).answer = .ok report

private theorem flush_limited (h : (e.begin σ).Upholds False .idle) (limit : Nat) :
    ((∃ report, ((e.limited limit).flush σ).answer = .ok report) ↔
      ∃ s, (e.begin σ).run .idle limit = .ok s) ∧
    ((e.limited limit).flush σ).engine.queue ((e.limited limit).flush σ).store =
      ((e.begin σ).last .idle limit).engine.queue ((e.begin σ).last .idle limit).store := by
  have halike : (e.begin σ).Alike ((e.limited limit).begin σ) := ⟨limit, .empty, rfl⟩
  have hflush : (e.limited limit).flush σ =
      .ofRun (((e.limited limit).begin σ).run .idle limit) := rfl
  rcases halike.run h limit with ⟨t, t', hrun, hrun', ht⟩ | ⟨stopped, stopped', hrun, hrun', ht⟩
  · rw [hflush, hrun', last, hrun]
    exact ⟨iff_of_true ⟨_, rfl⟩ ⟨t, rfl⟩, ht.queue_eq⟩
  · rw [hflush, hrun', last, hrun]
    refine ⟨iff_of_false ?_ ?_, ht.queue_eq⟩
    · rintro ⟨report, hreport⟩
      cases hreport
    · rintro ⟨t, ht⟩
      cases ht

theorem upholds_of_mutations (h : (e.begin σ).Upholds False .idle)
    (hbase : ∀ m ∈ mutations, ∀ q ∈ m.quads, q.graph ≠ e.graph) :
    (e.begin (mutations.foldl Mutation.carryOut σ)).Upholds False .idle := by
  induction mutations generalizing σ with
  | nil => exact h
  | cons m rest ih =>
      exact ih (h.mutate (hbase m List.mem_cons_self))
        fun x hx => hbase x (List.mem_cons_of_mem _ hx)

theorem orderly_of_mutations (h : History config ev e σ turns) (hquiet : e.IsQuiet σ)
    (hpos : e.IsPositive) (hbase : ∀ m ∈ mutations, ∀ q ∈ m.quads, q.graph ≠ e.graph) :
    (e.begin (mutations.foldl Mutation.carryOut σ)).Orderly .idle :=
  ⟨upholds_of_mutations (h.upholds.1.weaken False.elim) hbase, hpos,
    fun _ => ⟨hquiet.withdrawn_eq, hquiet.deferred_eq⟩, fun hx => absurd rfl hx, nofun⟩

/-- An engine of plain rules that is quiet after any history, and any changes outside the graph of the
conclusions: the next flush is answered, if only its limit is high enough, just in case some limit
leaves changes of one side only to wait. A batch of changes of one side is always dealt with. -/
theorem flush_converges_iff (h : History config ev e σ turns) (hquiet : e.IsQuiet σ)
    (hplain : ∀ id r, e.rule? id = some r → r.IsPlain)
    (hbase : ∀ m ∈ mutations, ∀ q ∈ m.quads, q.graph ≠ e.graph) :
    let σ' := mutations.foldl Mutation.carryOut σ
    (e.Converges σ' ↔ ∃ limit, IsOneSided
      (((e.limited limit).flush σ').engine.queue ((e.limited limit).flush σ').store)) ∧
    (IsOneSided (e.queue σ') → e.Converges σ') := by
  intro σ'
  have horderly : (e.begin σ').Orderly .idle :=
    orderly_of_mutations h hquiet (fun id r hr => (hplain id r hr).1) hbase
  have hupholds := horderly.upholds
  have hconverges : (e.begin σ').Terminates .idle → e.Converges σ' := by
    rintro ⟨bound, hbound⟩
    exact ⟨bound, fun limit hlimit => (flush_limited hupholds limit).1.2 (hbound limit hlimit)⟩
  refine ⟨⟨?_, ?_⟩, fun hside => hconverges (horderly.terminates hplain hside)⟩
  · rintro ⟨bound, hbound⟩
    obtain ⟨hanswer, hqueue⟩ := flush_limited hupholds bound
    obtain ⟨s, hrun⟩ := hanswer.1 (hbound bound (Nat.le_refl bound))
    have hsteady : False → (e.begin σ').isSteady .idle bound = true := False.elim
    rcases run_spec hupholds hsteady with
      ⟨s', hrun', _, hquiet', _⟩ | ⟨s', activity, hrun', _⟩
    · refine ⟨bound, Or.inl ?_⟩
      rw [hqueue, last, hrun', hquiet'.queue_eq]
      exact fun c hc => absurd hc List.not_mem_nil
    · rw [hrun'] at hrun
      cases hrun
  · rintro ⟨limit, hside⟩
    rw [(flush_limited hupholds limit).2] at hside
    exact hconverges (horderly.terminates_of_last hplain hside)

/-! ## A cycle of rules -/

/-- Whatever has all the values has the further one too. -/
def entail (id : String) (values : List String) (further : String) : Rule where
  id := id
  condition := ⟨values.map fun value =>
    ⟨.any, .variable ⟨"x"⟩, .node (.iri "p"), .node (.iri value)⟩, [], none⟩
  guard := none
  conclusions := [⟨.variable ⟨"x"⟩, .node (.iri "p"), .node (.iri further)⟩]
  active := true

/-- Something that has a value. -/
def having (value : String) : Quad :=
  ⟨.iri "g", .iri "x", .iri "p", .iri value⟩

/-- Two rules have B concluded, one from A and one from B itself, but only with C. There is A, and the
engine is quiet. -/
def cyclicSession : Session :=
  List.foldl Session.carryOut (Session.start .default .standard [])
    [.request (.add (entail "direct" ["A"] "B")), .request (.add (entail "cyclic" ["B", "C"] "B")),
      .mutate (.insert (having "A")), .request .flush]

private theorem isPlain_entail (id : String) (values : List String) (further : String) :
    (entail id values further).IsPlain := by
  refine ⟨⟨rfl, rfl⟩, fun c hc t ht => ?_⟩
  obtain rfl := List.mem_singleton.1 hc
  simp only [Conclusion.terms, List.mem_cons, List.not_mem_nil, or_false] at ht
  rcases ht with rfl | rfl | rfl <;> exact trivial

private theorem history_cyclicSession :
    History .default .standard cyclicSession.engine cyclicSession.store cyclicSession.turns :=
  Session.history_of_empty (by decide)

private theorem isQuiet_cyclicSession : cyclicSession.engine.IsQuiet cyclicSession.store where
  queue_eq := by decide +kernel
  suspects_eq := by decide +kernel
  withdrawn_eq := by decide +kernel
  deferred_eq := by decide +kernel

private theorem isPlain_cyclicSession :
    ∀ id r, cyclicSession.engine.rule? id = some r → r.IsPlain := by
  refine history_cyclicSession.rules (fun _ _ h => h) fun t ht r hr => ?_
  have hturns : cyclicSession.turns.map Turn.request =
      [.flush, .add (entail "cyclic" ["B", "C"] "B"), .add (entail "direct" ["A"] "B")] := rfl
  have hmem : t.request ∈ cyclicSession.turns.map Turn.request := List.mem_map_of_mem ht
  rw [hturns, hr] at hmem
  simp only [List.mem_cons, List.not_mem_nil, or_false, Request.add.injEq, reduceCtorEq,
    false_or] at hmem
  rcases hmem with rfl | rfl <;> exact isPlain_entail ..

/-- A goes and D comes: after two rounds only a loss waits. -/
theorem flush_converges_of_having :
    let mutations := [Mutation.remove (having "A"), .insert (having "D")]
    let σ' := mutations.foldl Mutation.carryOut cyclicSession.store
    ¬ IsOneSided (cyclicSession.engine.queue σ') ∧ cyclicSession.engine.Converges σ' := by
  intro mutations σ'
  have hbase : ∀ m ∈ mutations, ∀ q ∈ m.quads, q.graph ≠ cyclicSession.engine.graph := by
    decide +kernel
  have hmixed : ¬ IsOneSided (cyclicSession.engine.queue σ') := by decide +kernel
  have hlosses : IsOneSided (((cyclicSession.engine.limited 2).flush σ').engine.queue
      ((cyclicSession.engine.limited 2).flush σ').store) := by
    decide +kernel
  have hconverges := flush_converges_iff history_cyclicSession isQuiet_cyclicSession
    isPlain_cyclicSession hbase
  exact ⟨hmixed, hconverges.1.2 ⟨2, hlosses⟩⟩

/-- A goes and C comes. The loss of A has B dropped, and before that is noticed C has it concluded from
itself. The conclusion has B stored again, and before that is noticed the loss of B has it dropped
again. -/
theorem flush_goes_round_cycle :
    let mutations := [Mutation.remove (having "A"), .insert (having "C")]
    let σ' := mutations.foldl Mutation.carryOut cyclicSession.store
    History .default .standard cyclicSession.engine cyclicSession.store cyclicSession.turns ∧
      cyclicSession.engine.IsQuiet cyclicSession.store ∧
      (∀ id r, cyclicSession.engine.rule? id = some r → r.IsPlain) ∧
      (∀ m ∈ mutations, ∀ q ∈ m.quads, q.graph ≠ cyclicSession.engine.graph) ∧
      ∀ limit report, ((cyclicSession.engine.limited limit).flush σ').answer ≠ .ok report := by
  intro mutations σ'
  have hbase : ∀ m ∈ mutations, ∀ q ∈ m.quads, q.graph ≠ cyclicSession.engine.graph := by
    decide +kernel
  refine ⟨history_cyclicSession, isQuiet_cyclicSession, isPlain_cyclicSession, hbase,
    fun limit report hreport => ?_⟩
  have hupholds : (cyclicSession.engine.begin σ').Upholds False .idle :=
    upholds_of_mutations (history_cyclicSession.upholds.1.weaken False.elim) hbase
  have hrecurs : (cyclicSession.engine.begin σ').recurs .idle 2 2 = true := by decide +kernel
  obtain ⟨s, hrun⟩ := (flush_limited hupholds limit).1.1 ⟨report, hreport⟩
  exact not_ok_of_recurs hupholds hrecurs Nat.two_pos limit s hrun

end Entail
