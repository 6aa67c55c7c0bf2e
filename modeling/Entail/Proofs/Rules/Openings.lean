import Entail.Proofs.Rules.Balance
/-!
# Openings

What a request that is not refused makes of the rules before its run begins, whatever the engine is in
the middle of. A rule may be taken in, woken or put to rest; waking it and putting it to rest changes
what is supported, and that is settled before the first round.
-/

namespace Entail

open RuleEngine

variable {e : RuleEngine} {σ : Store} {request : Request} {s₀ : RunState}

/-- Why a request is refused, if it is. -/
def Request.refusal? (e : RuleEngine) : Request → Option Error
  | add r =>
    if e.slots.contains r.id then some (.duplicateRule r.id)
    else r.problem?.map (.invalidRule r.id)
  | remove id => if e.slots.contains id then none else some (.unknownRule id)
  | setActive id _ => if e.slots.contains id then none else some (.unknownRule id)
  | flush => none

/-- How the run of a request can begin. -/
inductive Turn.Begins (e : RuleEngine) (σ : Store) : Request → RunState → Prop where
  /-- The engine is flushed, or a rule is switched to what it is. -/
  | keep {request : Request} : Begins e σ request (e.begin σ)
  /-- A rule is taken in that is switched off. -/
  | takeIn {r : Rule} : e.slots.get? r.id = none → r.problem? = none → r.active = false →
    Begins e σ (.add r) ((e.begin σ).withSlot (.new r))
  /-- A rule that did not fire takes in the store. -/
  | wake {request : Request} {r : Rule} {n n' : Network} {p : Propagation}
      {failures : List ConclusionFailure} {slot : RuleSlot} {support : Support} {s : RunState} :
    request = .add r ∨ request = .setActive r.id true →
    (∀ old, e.slots.get? r.id = some old → old.firings = ∅) →
    r.problem? = none → r.active = true → Network.compile r.condition = .ok n →
    n.prime e.evaluator σ.contents = .ok (p, n') →
    RuleSlot.absorb e.evaluator e.graph ⟨r, some n', ∅⟩ e.support p =
      .ok (failures, slot, support) → slot.rule = r →
    RunState.settle .outside
      ⟨{ e with slots := (e.slots.insert r.id ⟨r, none, ∅⟩).insert r.id slot, support }, σ,
        { FlushReport.empty with failures }⟩ = .ok s →
    Begins e σ request s
  /-- A rule gives up its matches and is dropped, or kept switched off. -/
  | rest {request : Request} {slot : RuleSlot} {support : Support}
      {slots : OrderedMap String RuleSlot} {s : RunState} :
    e.slots.get? slot.rule.id = some slot →
    slot.clear e.support = .ok ({ slot with firings := ∅ }, support) →
    (request = .remove slot.rule.id ∧ slots = e.slots.erase slot.rule.id ∨
      request = .setActive slot.rule.id false ∧
        slots = e.slots.insert slot.rule.id ⟨{ slot.rule with active := false }, none, ∅⟩) →
    RunState.settle .outside ⟨{ e with slots, support }, σ, .empty⟩ = .ok s →
    Begins e σ request s

namespace Turn

/-- A request is refused, or begins a run. -/
private def Starts (t : Turn) : Prop :=
  (t.opening = none ∧ ∃ error, t.request.refusal? t.engine = some error ∧
      t.outcome = t.engine.refuse t.store error) ∨
    (t.request.refusal? t.engine = none ∧ ∃ s₀, t.opening = some s₀ ∧
      t.outcome = .ofRun s₀.runToQuiet ∧ Begins t.engine t.store t.request s₀)

private theorem wake_begins (h : (e.begin σ).Balanced) {r : Rule} {n : Network}
    (hrequest : request = .add r ∨ request = .setActive r.id true)
    (hidle : ∀ old, e.slots.get? r.id = some old → old.firings = ∅)
    (hactive : r.active = true) (hcompile : r.compile = .ok n) :
    ∃ s, ((e.begin σ).withSlot ⟨r, none, ∅⟩).activate ⟨r, none, ∅⟩ n = .ok s ∧
      Begins e σ request s := by
  obtain ⟨hvalid, hn⟩ := RunState.valid_of_compile hcompile
  obtain ⟨p, n', failures, slot, support, hprime, habsorb, hrule, htracks, _⟩ :=
    h.tracks.wake hidle hvalid hactive hn h.indexed trivial (fun _ _ => Iff.rfl) fun _ _ => Iff.rfl
  obtain ⟨s, hsettle, _⟩ := RunState.Balanced.settle
    (s := ⟨{ e with slots := (e.slots.insert r.id ⟨r, none, ∅⟩).insert r.id slot, support }, σ,
      { FlushReport.empty with failures }⟩) ⟨h.indexed, htracks⟩ .outside
  refine ⟨s, ?_, .wake hrequest hidle hvalid hactive hn hprime habsorb hrule hsettle⟩
  rw [RunState.activate_eq hprime habsorb hrule]
  exact hsettle

private theorem add_starts (h : (e.begin σ).Balanced) (r : Rule) : Starts ⟨e, σ, .add r⟩ := by
  unfold Starts
  simp only [opening, outcome, Request.carryOut, RuleEngine.add, Request.refusal?]
  by_cases hcontains : e.slots.contains r.id = true
  · simp only [if_pos hcontains]
    exact Or.inl ⟨trivial, _, rfl, rfl⟩
  · simp only [if_neg hcontains]
    have hnone : e.slots.get? r.id = none := by
      rw [← Option.not_isSome_iff_eq_none]
      exact hcontains
    cases hproblem : r.problem? with
    | some p =>
        have hcompile : r.compile = .error (.invalidRule r.id p) := by
          rw [Rule.compile, Rule.validate, hproblem]
          rfl
        simp only [hcompile]
        exact Or.inl ⟨trivial, _, rfl, rfl⟩
    | none =>
        obtain ⟨n, hcompile, _⟩ := RunState.compile_of_valid hproblem
        refine Or.inr ⟨rfl, ?_⟩
        by_cases hactive : r.active = true
        · obtain ⟨s, hrun, hbegins⟩ := wake_begins h (Or.inl rfl)
            (fun old hold => by cases hnone.symm.trans hold) hactive hcompile
          have hrun' : ((e.begin σ).withSlot (.new r)).activate (.new r) n = .ok s := hrun
          simp only [hcompile, if_pos hactive, hrun', Result.ok_bind]
          exact ⟨s, rfl, rfl, hbegins⟩
        · simp only [hcompile, if_neg hactive, Result.ok_bind]
          exact ⟨_, rfl, rfl, .takeIn hnone hproblem (Bool.not_eq_true _ ▸ hactive)⟩

private theorem refusal_of_unknown {id : String} (hget : e.slots.get? id = none) :
    (if e.slots.contains id then none else some (Error.unknownRule id)) =
      some (.unknownRule id) := by
  rw [OrderedMap.contains, hget]
  rfl

private theorem refusal_of_known {id : String} {slot : RuleSlot}
    (hget : e.slots.get? id = some slot) :
    (if e.slots.contains id then none else some (Error.unknownRule id)) = none := by
  rw [OrderedMap.contains, hget]
  rfl

private theorem remove_starts (h : (e.begin σ).Balanced) (id : String) :
    Starts ⟨e, σ, .remove id⟩ := by
  cases hget : e.slots.get? id with
  | none =>
      unfold Starts
      simp only [opening, outcome, Request.carryOut, RuleEngine.remove, hget, Option.bind_none]
      exact Or.inl ⟨trivial, _, refusal_of_unknown hget, rfl⟩
  | some slot =>
      obtain rfl := h.tracks.named id slot hget
      obtain ⟨support, hclear, htracks, _⟩ := h.tracks.rest hget rfl
      have hdeactivate := RunState.deactivate_eq
        (s := RuleEngine.begin { e with slots := e.slots.erase slot.rule.id } σ) hclear
      obtain ⟨s, hsettle, _⟩ := RunState.Balanced.settle
        (s := ⟨{ e with slots := e.slots.erase slot.rule.id, support }, σ, .empty⟩)
        ⟨h.indexed, htracks⟩ .outside
      have hbegins : Begins e σ (.remove slot.rule.id) s :=
        .rest hget hclear (Or.inl ⟨rfl, rfl⟩) hsettle
      unfold Starts
      simp only [opening, outcome, Request.carryOut, RuleEngine.remove, hget, Option.bind_some,
        hdeactivate, Result.ok_bind]
      simp only [RuleEngine.begin, hsettle, Result.ok_bind]
      exact Or.inr ⟨refusal_of_known hget, s, rfl, rfl, hbegins⟩

private theorem switchOn_starts (h : (e.begin σ).Balanced) {id : String} {old : RuleSlot}
    (hget : e.slots.get? id = some old) (hold : old.rule.active = false) :
    Starts ⟨e, σ, .setActive id true⟩ := by
  obtain rfl := h.tracks.named id old hget
  have htracks := h.tracks.slots _ old hget
  have hold' : old = ⟨old.rule, none, ∅⟩ := htracks.eq_of_inactive hold
  have hslot := htracks.switchOn_eq hold
  have hvalid : Rule.problem? { old.rule with active := true } = none := htracks.valid
  obtain ⟨n, hcompile, _⟩ := RunState.compile_of_valid hvalid
  obtain ⟨s, hrun, hbegins⟩ := wake_begins (r := { old.rule with active := true }) h (Or.inr rfl)
    (fun other hother => by
      have hother' : e.slots.get? old.rule.id = some other := hother
      rw [hget] at hother'
      rw [← Option.some_inj.1 hother', hold']) rfl hcompile
  unfold Starts
  simp only [opening, outcome, Request.carryOut, RuleEngine.setActive, hget, Option.bind_some,
    hold, Bool.false_eq_true, if_false, if_true, hslot, hcompile, hrun, Result.ok_bind]
  exact Or.inr ⟨refusal_of_known hget, s, rfl, rfl, hbegins⟩

private theorem switchOff_starts (h : (e.begin σ).Balanced) {id : String} {old : RuleSlot}
    (hget : e.slots.get? id = some old) (hold : old.rule.active = true) :
    Starts ⟨e, σ, .setActive id false⟩ := by
  obtain rfl := h.tracks.named id old hget
  obtain ⟨support, hclear, _, _, htracks, _⟩ := h.tracks.rest hget rfl
  have hdeactivate := RunState.deactivate_eq (s := e.begin σ) (RunState.clear_switched false hclear)
  obtain ⟨s, hsettle, _⟩ := RunState.Balanced.settle
    (s := ⟨{ e with
      slots := e.slots.insert old.rule.id ⟨{ old.rule with active := false }, none, ∅⟩
      support }, σ, .empty⟩) ⟨h.indexed, htracks⟩ .outside
  have hbegins : Begins e σ (.setActive old.rule.id false) s :=
    .rest hget hclear (Or.inr ⟨rfl, rfl⟩) hsettle
  have hsettle' : RunState.settle .outside (RunState.withSlot ⟨{ e with support }, σ, .empty⟩
      ⟨{ old.rule with active := false }, none, ∅⟩) = .ok s := hsettle
  unfold Starts
  simp only [opening, outcome, Request.carryOut, RuleEngine.setActive, hget, Option.bind_some,
    hold, Bool.true_eq_false, Bool.false_eq_true, if_false, hdeactivate, Result.ok_bind]
  simp only [RuleEngine.begin, hsettle', Result.ok_bind]
  exact Or.inr ⟨refusal_of_known hget, s, rfl, rfl, hbegins⟩

private theorem setActive_starts (h : (e.begin σ).Balanced) (id : String) (active : Bool) :
    Starts ⟨e, σ, .setActive id active⟩ := by
  cases hget : e.slots.get? id with
  | none =>
      unfold Starts
      simp only [opening, outcome, Request.carryOut, RuleEngine.setActive, hget, Option.bind_none]
      exact Or.inl ⟨trivial, _, refusal_of_unknown hget, rfl⟩
  | some old =>
      by_cases hsame : old.rule.active = active
      · unfold Starts
        simp only [opening, outcome, Request.carryOut, RuleEngine.setActive, hget,
          Option.bind_some, if_pos hsame]
        exact Or.inr ⟨refusal_of_known hget, _, rfl, rfl, .keep⟩
      · cases active with
        | true => exact switchOn_starts h hget (Bool.eq_false_iff.2 hsame)
        | false => exact switchOff_starts h hget (Bool.not_eq_false _ ▸ hsame)

theorem outcome_begins (t : Turn) (h : (t.engine.begin t.store).Balanced) :
    (t.opening = none ∧ ∃ error, t.request.refusal? t.engine = some error ∧
        t.outcome = t.engine.refuse t.store error) ∨
      (t.request.refusal? t.engine = none ∧ ∃ s₀, t.opening = some s₀ ∧
        t.outcome = .ofRun s₀.runToQuiet ∧ Begins t.engine t.store t.request s₀) := by
  obtain ⟨e, σ, request⟩ := t
  cases request with
  | add r => exact add_starts h r
  | remove id => exact remove_starts h id
  | setActive id active => exact setActive_starts h id active
  | flush => exact Or.inr ⟨rfl, _, rfl, rfl, .keep⟩

end Turn

theorem Request.carryOut_begins (h : (e.begin σ).Balanced) (request : Request) :
    (∃ error, request.refusal? e = some error ∧ request.carryOut e σ = e.refuse σ error) ∨
      (request.refusal? e = none ∧ ∃ s₀, request.carryOut e σ = .ofRun s₀.runToQuiet ∧
        Turn.Begins e σ request s₀) := by
  rcases Turn.outcome_begins ⟨e, σ, request⟩ h with ⟨_, error, hrefusal, hrefused⟩ |
    ⟨hnone, s₀, _, houtcome, hbegins⟩
  · exact Or.inl ⟨error, hrefusal, hrefused⟩
  · exact Or.inr ⟨hnone, s₀, houtcome, hbegins⟩

/-! ## Before the run -/

namespace Turn

private theorem wake_tracks (h : (e.begin σ).Balanced) {r : Rule} {n n' : Network} {p : Propagation}
    {failures : List ConclusionFailure} {slot : RuleSlot} {support : Support}
    (hidle : ∀ old, e.slots.get? r.id = some old → old.firings = ∅) (hvalid : r.problem? = none)
    (hactive : r.active = true) (hn : Network.compile r.condition = .ok n)
    (hprime : n.prime e.evaluator σ.contents = .ok (p, n'))
    (habsorb : RuleSlot.absorb e.evaluator e.graph ⟨r, some n', ∅⟩ e.support p =
      .ok (failures, slot, support)) :
    ∃ gains loses, Tracks { e with
        slots := (e.slots.insert r.id ⟨r, none, ∅⟩).insert r.id slot, support } (fun _ _ => True) ∧
      e.Evolves { e with slots := (e.slots.insert r.id ⟨r, none, ∅⟩).insert r.id slot, support }
        gains loses := by
  obtain ⟨_, _, _, _, _, hprime', habsorb', _, htracks, hevolves⟩ :=
    h.tracks.wake hidle hvalid hactive hn h.indexed trivial (fun _ _ => Iff.rfl) fun _ _ => Iff.rfl
  obtain ⟨rfl, rfl⟩ := Result.pair_eq_of_eq_ok hprime' hprime
  obtain ⟨rfl, hsame⟩ := Result.pair_eq_of_eq_ok habsorb' habsorb
  obtain ⟨rfl, rfl⟩ := Prod.mk.inj hsame
  exact ⟨_, _, htracks, hevolves⟩

/-- Before its first round a request has changed nothing but slots and support, and settled what that
made of the support. -/
theorem Begins.prepared (h : Begins e σ request s₀) (hb : (e.begin σ).Balanced) :
    (∃ slots, Tracks { e with slots } (fun _ _ => True) ∧ s₀ = begin { e with slots } σ) ∨
      ∃ slots support failures gains loses,
        Tracks { e with slots, support } (fun _ _ => True) ∧
        e.Evolves { e with slots, support } gains loses ∧
        RunState.settle .outside
          ⟨{ e with slots, support }, σ, { FlushReport.empty with failures }⟩ = .ok s₀ := by
  cases h with
  | keep => exact Or.inl ⟨e.slots, hb.tracks, rfl⟩
  | takeIn hnone hvalid hactive =>
      exact Or.inl ⟨_, hb.tracks.add_idle hnone hvalid hactive, rfl⟩
  | wake _ hidle hvalid hactive hn hprime habsorb _ hsettle =>
      obtain ⟨gains, loses, htracks, hevolves⟩ :=
        wake_tracks hb hidle hvalid hactive hn hprime habsorb
      exact Or.inr ⟨_, _, _, gains, loses, htracks, hevolves, hsettle⟩
  | rest hget hclear hslots hsettle =>
      obtain ⟨_, hclear', htracks, hevolves, htracks', hevolves'⟩ := hb.tracks.rest hget rfl
      obtain ⟨_, rfl⟩ := Result.pair_eq_of_eq_ok hclear' hclear
      rcases hslots with ⟨_, rfl⟩ | ⟨_, rfl⟩
      · exact Or.inr ⟨_, _, _, _, _, htracks, hevolves, hsettle⟩
      · exact Or.inr ⟨_, _, _, _, _, htracks', hevolves', hsettle⟩

theorem Begins.balanced (h : Begins e σ request s₀) (hb : (e.begin σ).Balanced) : s₀.Balanced := by
  rcases h.prepared hb with ⟨slots, htracks, rfl⟩ |
    ⟨slots, support, failures, _, _, htracks, _, hsettle⟩
  · exact ⟨hb.indexed, htracks⟩
  · have hprepared : RunState.Balanced
        ⟨{ e with slots, support }, σ, { FlushReport.empty with failures }⟩ := ⟨hb.indexed, htracks⟩
    exact hprepared.of_settle hsettle

end Turn

/-! ## Requests -/

/-- What is left of a request whose run began in `s₀` and ended in `last`. -/
structure Outcome.Leaves (o : Outcome) (s₀ last : RunState) : Prop where
  engine_eq : o.engine = last.engine
  store_eq : o.store = last.store
  answered : (s₀.runToQuiet = .ok last ∧ o.answer = .ok last.report) ∨ ∃ activity, o.answer =
    .error (.error (.roundsExceeded last.engine.config.maxRounds (some activity)))

theorem Outcome.Leaves.begin_eq {o : Outcome} {last : RunState} (h : o.Leaves s₀ last) :
    o.engine.begin o.store = last.engine.begin last.store := by
  rw [h.engine_eq, h.store_eq]

theorem Outcome.Leaves.of_answer {o : Outcome} {last : RunState} {report : FlushReport}
    (h : o.Leaves s₀ last) (hanswer : o.answer = .ok report) :
    s₀.runToQuiet = .ok last ∧ report = last.report := by
  rcases h.answered with ⟨hrun, hreport⟩ | ⟨activity, herror⟩
  · exact ⟨hrun, Result.eq_of_eq_ok hanswer hreport⟩
  · rw [hanswer] at herror
    cases herror

/-- A request is refused and changes nothing, or leaves what its run ends in. -/
theorem Request.carryOut_cases {P : RunState → Prop} (h : (e.begin σ).Balanced) (request : Request)
    (hends : ∀ s₀, Turn.Begins e σ request s₀ → RunState.EndsIn P s₀.runToQuiet) :
    (∃ error, request.refusal? e = some error ∧ request.carryOut e σ = e.refuse σ error) ∨
      (request.refusal? e = none ∧
        ∃ s₀ last : RunState, P last ∧ (request.carryOut e σ).Leaves s₀ last) := by
  rcases request.carryOut_begins h with hrefused | ⟨hnone, s₀, houtcome, hbegins⟩
  · exact Or.inl hrefused
  · have hlast := hends s₀ hbegins
    refine Or.inr ⟨hnone, s₀, ?_⟩
    rw [houtcome]
    cases hrun : s₀.runToQuiet with
    | ok last =>
        rw [hrun] at hlast
        exact ⟨last, hlast, rfl, rfl, Or.inl ⟨hrun, rfl⟩⟩
    | error stopped =>
        rw [hrun] at hlast
        obtain ⟨hP, activity, hcause⟩ := hlast
        exact ⟨stopped.state, hP, rfl, rfl, Or.inr ⟨activity, congrArg Except.error hcause⟩⟩

/-- An answer that is no fault, of a balanced engine. -/
structure Outcome.IsSound (o : Outcome) : Prop where
  balanced : (o.engine.begin o.store).Balanced
  answered : ∀ f, o.answer ≠ .error (.fault f)

theorem Outcome.IsSound.carryOut (h : (e.begin σ).Balanced) (request : Request) :
    (request.carryOut e σ).IsSound := by
  have hends : ∀ s₀, Turn.Begins e σ request s₀ → RunState.EndsIn RunState.Balanced s₀.runToQuiet :=
    fun s₀ hbegins => RunState.Balanced.isKept.runToQuiet (hbegins.balanced h)
  rcases request.carryOut_cases h hends with ⟨error, _, hrefused⟩ | ⟨_, s₀, last, hlast, hleaves⟩
  · rw [hrefused]
    exact ⟨h, nofun⟩
  · refine ⟨?_, fun f hf => ?_⟩
    · rw [hleaves.begin_eq]
      exact hlast.begin
    · rcases hleaves.answered with ⟨_, hanswer⟩ | ⟨_, hanswer⟩
      · rw [hf] at hanswer
        cases hanswer
      · rw [hf] at hanswer
        cases hanswer

end Entail
