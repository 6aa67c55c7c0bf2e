import Entail.Proofs.Rules.Runs
/-!
# Requests

A request is refused and changes nothing, or it opens a run. The state in which the run begins upholds
the ledger and the grounds like the one before the request.
-/

namespace Entail

open RuleEngine

/-- What can be asked of an engine. -/
inductive Request where
  | add (r : Rule)
  | remove (id : String)
  | setActive (id : String) (active : Bool)
  | flush

def Request.carryOut (e : RuleEngine) (store : Store) : Request → Outcome
  | add r => e.add store r
  | remove id => e.remove store id
  | setActive id active => e.setActive store id active
  | flush => e.flush store

/-- The rule of a name once the request is granted. -/
def Request.rule? (e : RuleEngine) (id : String) : Request → Option Rule
  | add r => if r.id = id then some r else e.rule? id
  | remove id' => if id' = id then none else e.rule? id
  | setActive id' active =>
    if id' = id then (e.rule? id).map fun r => { r with active } else e.rule? id
  | flush => e.rule? id

/-- The rule `r` does not run, and does once the request is granted. -/
def Request.SwitchesOn (e : RuleEngine) (r : Rule) (request : Request) : Prop :=
  r.active = true ∧ request.rule? e r.id = some r ∧ ¬ e.Runs r

/-- A request to an engine on a store. -/
structure Turn where
  engine : RuleEngine
  store : Store
  request : Request

namespace Turn

def outcome (t : Turn) : Outcome :=
  t.request.carryOut t.engine t.store

/-- The request was given up because it took too many rounds. -/
def IsStopped (t : Turn) : Prop :=
  ∃ limit activity, t.outcome.answer = .error (.error (.roundsExceeded limit activity))

private def exceeds : Except StopCause FlushReport → Bool
  | .error (.error (.roundsExceeded _ _)) => true
  | _ => false

private theorem exceeds_iff {answer : Except StopCause FlushReport} : exceeds answer = true ↔
    ∃ limit activity, answer = .error (.error (.roundsExceeded limit activity)) := by
  constructor
  · intro h
    unfold exceeds at h
    split at h
    · exact ⟨_, _, rfl⟩
    · cases h
  · rintro ⟨limit, activity, rfl⟩
    rfl

instance (t : Turn) : Decidable t.IsStopped :=
  decidable_of_iff _ exceeds_iff

/-- The state in which the run of a request begins; there is none if it is refused. -/
def opening (t : Turn) : Option RunState :=
  let e := t.engine
  let s := e.begin t.store
  match t.request with
  | .flush => some s
  | .add r =>
    if e.slots.contains r.id then none
    else
      match r.compile with
      | .error _ => none
      | .ok network =>
        if r.active then ((s.withSlot (.new r)).activate (.new r) network).toOption
        else some (s.withSlot (.new r))
  | .remove id =>
    (e.slots.get? id).bind fun slot => Except.toOption do
      let (s, _) ← (({ e with slots := e.slots.erase id } : RuleEngine).begin t.store).deactivate slot
      s.settle .outside
  | .setActive id active =>
    (e.slots.get? id).bind fun old =>
      let slot := { old with rule := { old.rule with active } }
      if old.rule.active = active then some s
      else if active then
        match slot.rule.compile with
        | .error _ => none
        | .ok network => ((s.withSlot slot).activate slot network).toOption
      else Except.toOption do
        let (s, slot) ← s.deactivate slot
        (s.withSlot slot).settle .outside

/-- Every quad that the run of the request reinstates is supported when its turn comes. -/
def isSteady (t : Turn) : Bool :=
  match t.opening with
  | none => true
  | some s => s.isSteady .idle s.engine.config.maxRounds

/-- The run of a request begins in `s`. -/
structure Opens (clean : Prop) (t : Turn) (s : RunState) : Prop where
  opening_eq : t.opening = some s
  outcome_eq : t.outcome = .ofRun s.runToQuiet
  upholds : s.Upholds clean .idle
  config_eq : s.engine.config = t.engine.config
  evaluator_eq : s.engine.evaluator = t.engine.evaluator
  rule_eq : ∀ id, s.engine.rule? id = t.request.rule? t.engine id
  base_iff : ∀ x, x.graph ≠ t.engine.graph →
    (s.store.contents.Has x ↔ t.store.contents.Has x)

end Turn

/-! ## Changes of the slots -/

namespace RunState

variable {clean : Prop} {s : RunState} {slots : OrderedMap String RuleSlot} {support : Support}
  {gains loses : Rule → Token → Prop}

private theorem Standing.evolve (h : s.Standing clean [] [])
    (htracks : Tracks { s.engine with slots, support } fun _ =>
      s.engine.Sees clean s.store (· ∈ s.engine.withdrawn))
    (hev : s.engine.Evolves { s.engine with slots, support } gains loses) (report : FlushReport) :
    Standing clean (taken ⟨{ s.engine with slots, support }, s.store, report⟩) support.raised
      support.lowered := by
  refine ⟨?_, fun hc => ?_⟩
  · constructor
    · exact h.ledger.indexed
    · exact h.ledger.subscribed
    · exact h.ledger.current
    · exact ⟨htracks.named, htracks.slots, htracks.accounts.settled⟩
    · rfl
    · rfl
    · exact h.ledger.hidden_stored
    · exact h.ledger.hidden_graph
    · rintro q (hq | hq)
      · exact h.ledger.doubted_graph q (Or.inl hq)
      · rcases hev.lowered_from q hq with hq | ⟨r, t, _, hconcludes⟩
        · rw [h.ledger.lowered_nil] at hq
          exact absurd hq List.not_mem_nil
        · exact hconcludes.isConclusion.graph_eq
    · intro q hq
      rcases hev.raises q hq with hq | hq
      · rcases h.ledger.complete q hq with hstored | hdeferred | hraised
        · exact Or.inl hstored
        · exact Or.inr (Or.inl hdeferred)
        · exact absurd hraised List.not_mem_nil
      · exact Or.inr (Or.inr hq)
  · have hcarries : s.engine.CarriesOver
        { s.engine with slots, support := support.settled } s.store s.store
        (· ∈ s.engine.withdrawn) (· ∈ s.engine.withdrawn)
        (fun q => q ∈ s.engine.suspects ∨ q ∈ [])
        (fun q => q ∈ s.engine.suspects ∨ q ∈ support.lowered) := by
      constructor
      · rfl
      · rfl
      · intro r t q hf hconcludes hdoubt
        rcases hev.kept r t hf with hf' | ⟨_, hlow⟩
        · exact hf'
        · exact absurd (Or.inr (hlow q hconcludes)) hdoubt
      · exact fun _ _ _ f _ _ hlost => ⟨hlost, And.intro⟩
      · rintro q _ _ hdoubt (hd | hd)
        · exact hdoubt (Or.inl hd)
        · exact List.not_mem_nil hd
    exact (h.grounded hc).step hcarries fun q hhas _ hhid _ => Or.inl ⟨hhas, hhid⟩

/-- The engine got other slots, and what they raise and lower is settled. -/
private structure Refits (clean : Prop) (s : RunState) (slots : OrderedMap String RuleSlot)
    (s' : RunState) : Prop where
  upholds : s'.Upholds clean .idle
  config_eq : s'.engine.config = s.engine.config
  evaluator_eq : s'.engine.evaluator = s.engine.evaluator
  slots_eq : s'.engine.slots = slots
  base_iff : ∀ x, x.graph ≠ s.engine.graph →
    (s'.store.contents.Has x ↔ s.store.contents.Has x)

private theorem Upholds.settle (h : s.Upholds clean .idle)
    (htracks : Tracks { s.engine with slots, support } fun _ =>
      s.engine.Sees clean s.store (· ∈ s.engine.withdrawn))
    (hev : s.engine.Evolves { s.engine with slots, support } gains loses) (report : FlushReport) :
    ∃ s', RunState.settle .outside ⟨{ s.engine with slots, support }, s.store, report⟩ = .ok s' ∧
      Refits clean s slots s' := by
  obtain ⟨s', hsettle, hstanding, hsettles⟩ :=
    settle_spec .outside (h.standing.evolve htracks hev report)
  refine ⟨s', hsettle, ?_⟩
  constructor
  · exact .of_idle hstanding
  · exact hsettles.config_eq
  · exact hsettles.evaluator_eq
  · exact hsettles.slots_eq
  · exact hsettles.base_iff

theorem compile_of_valid {r : Rule} (h : r.problem? = none) :
    ∃ n, r.compile = .ok n ∧ Network.compile r.condition = .ok n := by
  have hcondition : r.condition.problem? = none := by
    unfold Rule.problem? at h
    split at h
    · cases h
    · assumption
  have hn : ∃ n, Network.compile r.condition = .ok n := by
    unfold Network.compile
    rw [hcondition]
    exact ⟨_, rfl⟩
  obtain ⟨n, hn⟩ := hn
  refine ⟨n, ?_, hn⟩
  rw [Rule.compile, Rule.validate, h]
  exact hn

theorem valid_of_compile {r : Rule} {n : Network} (h : r.compile = .ok n) :
    r.problem? = none ∧ Network.compile r.condition = .ok n := by
  obtain ⟨u, hvalid, hn⟩ := Result.bind_eq_ok_iff.1 h
  refine ⟨?_, hn⟩
  unfold Rule.validate at hvalid
  split at hvalid
  · cases hvalid
  · assumption

theorem activate_eq {r : Rule} {n n' : Network} {p : Propagation}
    {failures : List ConclusionFailure} {slot : RuleSlot}
    (hprime : n.prime s.engine.evaluator s.store.contents = .ok (p, n'))
    (habsorb : RuleSlot.absorb s.engine.evaluator s.engine.graph ⟨r, some n', ∅⟩
      s.engine.support p = .ok (failures, slot, support))
    (hrule : slot.rule = r) :
    (s.withSlot ⟨r, none, ∅⟩).activate ⟨r, none, ∅⟩ n = RunState.settle .outside
      ⟨{ s.engine with
          slots := (s.engine.slots.insert r.id ⟨r, none, ∅⟩).insert r.id slot
          support },
        s.store, { s.report with failures := s.report.failures ++ failures }⟩ := by
  have hattempt : attempt (s.withSlot ⟨r, none, ∅⟩) (.ok (failures, slot, support)) =
      .ok (failures, slot, support) := rfl
  unfold activate
  simp only [withSlot, graph] at habsorb hattempt ⊢
  rw [hprime, Result.ok_bind, habsorb, hattempt, Result.ok_bind, hrule]

private theorem activate_spec (h : s.Upholds clean .idle) {r : Rule} {n : Network}
    (hidle : ∀ old, s.engine.slots.get? r.id = some old → old.firings = ∅)
    (hactive : r.active = true) (hapart : clean → r.condition.IsApart s.engine.withdrawn)
    (hcompile : r.compile = .ok n) :
    ∃ s' slots, (s.withSlot ⟨r, none, ∅⟩).activate ⟨r, none, ∅⟩ n = .ok s' ∧
      Refits clean s slots s' ∧
      ∀ id, (slots.get? id).map RuleSlot.rule =
        if r.id = id then some r else s.engine.rule? id := by
  obtain ⟨hvalid, hn⟩ := valid_of_compile hcompile
  -- the network is primed with the store, and the others may have seen no withdrawn quad of it
  have hview : ∀ q, (clean → q ∉ s.engine.withdrawn) →
      (s.store.contents.Has q ↔ s.store.contents.Has q ∧ (clean → q ∉ s.engine.withdrawn)) :=
    fun q hq => (and_iff_left hq).symm
  have hreads : ∀ q, r.condition.Reads q → clean → q ∉ s.engine.withdrawn :=
    fun q hread hc hq => (hapart hc q hq).1 hread
  have hdenies : ∀ q, r.condition.Denies q → clean → q ∉ s.engine.withdrawn :=
    fun q hdenied hc hq => (hapart hc q hq).2 hdenied
  obtain ⟨p, n', failures, slot, support, hprime, habsorb, hrule, htracks, hev⟩ :=
    h.standing.ledger.tracks.wake hidle hvalid hactive hn h.standing.ledger.indexed
      h.standing.ledger.sees_view (fun q hread => hview q (hreads q hread))
      fun q hdenied => hview q (hdenies q hdenied)
  obtain ⟨s', hsettle, hrefits⟩ :=
    h.settle htracks hev { s.report with failures := s.report.failures ++ failures }
  refine ⟨s', _, ?_, hrefits, fun id => ?_⟩
  · rw [activate_eq hprime habsorb hrule]
    exact hsettle
  · rw [OrderedMap.get?_insert, OrderedMap.get?_insert]
    split
    · rw [Option.map_some, hrule]
    · rfl

theorem deactivate_eq {slot slot' : RuleSlot}
    (h : slot.clear s.engine.support = .ok (slot', support)) :
    s.deactivate slot =
      .ok ({ s with engine := { s.engine with support } }, { slot' with network := none }) := by
  rw [deactivate, h]
  rfl

theorem clear_switched {slot slot' : RuleSlot} (active : Bool) {support support' : Support}
    (h : slot.clear support = .ok (slot', support')) :
    RuleSlot.clear { slot with rule := { slot.rule with active } } support =
      .ok (⟨{ slot.rule with active }, slot.network, ∅⟩, support') := by
  unfold RuleSlot.clear at h ⊢
  obtain ⟨support₁, hfold, heq⟩ := Result.bind_eq_ok_iff.1 h
  cases heq
  simp only at hfold ⊢
  rw [hfold]
  rfl

private theorem deactivate_spec (h : s.Upholds clean .idle) {slot : RuleSlot} {id : String}
    (hget : s.engine.slots.get? id = some slot) :
    ∃ support, slot.clear s.engine.support = .ok ({ slot with firings := ∅ }, support) ∧
      (∃ s', RunState.settle .outside
          ⟨{ s.engine with slots := s.engine.slots.erase id, support }, s.store, s.report⟩ = .ok s' ∧
        Refits clean s (s.engine.slots.erase id) s') ∧
      ∃ s', RunState.settle .outside ⟨{ s.engine with
          slots := s.engine.slots.insert id ⟨{ slot.rule with active := false }, none, ∅⟩
          support }, s.store, s.report⟩ = .ok s' ∧
        Refits clean s
          (s.engine.slots.insert id ⟨{ slot.rule with active := false }, none, ∅⟩) s' := by
  obtain rfl := h.standing.ledger.tracks.named id slot hget
  obtain ⟨support, hclear, htracks, hev, htracks', hev'⟩ :=
    h.standing.ledger.tracks.rest hget rfl
  exact ⟨support, hclear, h.settle htracks hev s.report, h.settle htracks' hev' s.report⟩

private theorem settled_of_nil {support : Support} (hraised : support.raised = [])
    (hlowered : support.lowered = []) : support.settled = support := by
  obtain ⟨byRule, totals, raised, lowered⟩ := support
  obtain rfl : raised = [] := hraised
  obtain rfl : lowered = [] := hlowered
  rfl

private theorem withSlot_spec (h : s.Upholds clean .idle) {r : Rule}
    (hnone : s.engine.slots.get? r.id = none) (hvalid : r.problem? = none)
    (hactive : r.active = false) : (s.withSlot (.new r)).Upholds clean .idle := by
  have htracks := h.standing.ledger.tracks.add_idle hnone hvalid hactive
  have hraised := h.standing.ledger.raised_nil
  have hlowered := h.standing.ledger.lowered_nil
  have hev : s.engine.Evolves
      { s.engine with slots := s.engine.slots.insert r.id (.new r), support := s.engine.support }
      (fun _ _ => False) fun _ _ => False := by
    constructor
    · exact fun _ => id
    · exact fun _ => id
    · exact fun _ => Or.inl
    · exact fun _ => Or.inl
    · exact fun _ => Or.inl
    · rintro r' t ⟨slot, hslot, hrule, hcontains⟩
      have hne : ¬ r.id = r'.id := by
        intro heq
        rw [← heq, hnone] at hslot
        cases hslot
      refine Or.inl ⟨slot, ?_, hrule, hcontains⟩
      rw [OrderedMap.get?_insert, if_neg hne]
      exact hslot
  have hstanding := h.standing.evolve htracks hev s.report
  rw [hraised, hlowered] at hstanding
  rw [taken, settled_of_nil hraised hlowered] at hstanding
  exact .of_idle hstanding

end RunState

/-! ## Opening a run -/

namespace Turn

variable {clean : Prop} {e : RuleEngine} {σ : Store}

private theorem rule?_eq {id : String} {slot : RuleSlot} (h : e.slots.get? id = some slot) :
    e.rule? id = some slot.rule := by
  rw [rule?, h, Option.map_some]

private theorem Opens.of_refits {t : Turn} {s : RunState} {slots : OrderedMap String RuleSlot}
    (h : RunState.Refits clean (t.engine.begin t.store) slots s) (hopening : t.opening = some s)
    (houtcome : t.outcome = .ofRun s.runToQuiet)
    (hrule : ∀ id, (slots.get? id).map RuleSlot.rule = t.request.rule? t.engine id) :
    Opens clean t s := by
  constructor
  · exact hopening
  · exact houtcome
  · exact h.upholds
  · exact h.config_eq
  · exact h.evaluator_eq
  · intro id
    rw [RuleEngine.rule?, h.slots_eq]
    exact hrule id
  · exact h.base_iff

private theorem add_spec (h : (e.begin σ).Upholds clean .idle) (r : Rule)
    (hapart : clean → ∀ r', (Request.add r).SwitchesOn e r' → r'.condition.IsApart e.withdrawn) :
    (Turn.opening ⟨e, σ, .add r⟩ = none ∧ ∃ error, e.add σ r = e.refuse σ error) ∨
      ∃ s, Opens clean ⟨e, σ, .add r⟩ s := by
  by_cases hcontains : e.slots.contains r.id = true
  · refine Or.inl ⟨?_, .duplicateRule r.id, ?_⟩
    · simp only [opening, hcontains, if_true]
    · rw [RuleEngine.add, if_pos hcontains]
  · have hnone : e.slots.get? r.id = none := by
      rw [← Option.not_isSome_iff_eq_none]
      exact hcontains
    cases hcompile : r.compile with
    | error error =>
        refine Or.inl ⟨?_, error, ?_⟩
        · simp only [opening, hcompile, if_neg hcontains]
        · rw [RuleEngine.add, if_neg hcontains, hcompile]
    | ok n =>
        right
        by_cases hactive : r.active = true
        · have hnew : ¬ e.Runs r := by
            rintro ⟨_, hrule⟩
            rw [rule?, hnone] at hrule
            cases hrule
          have hidle : ∀ old, e.slots.get? r.id = some old → old.firings = ∅ := by
            intro old hold
            rw [hnone] at hold
            cases hold
          obtain ⟨s, slots, hrun, hrefits, hrule⟩ :=
            RunState.activate_spec h hidle hactive
              (fun hc => hapart hc r ⟨hactive, if_pos rfl, hnew⟩) hcompile
          have hrun' : ((e.begin σ).withSlot (.new r)).activate (.new r) n = .ok s := hrun
          refine ⟨s, .of_refits hrefits ?_ ?_ hrule⟩
          · simp only [opening, hcompile, if_neg hcontains, if_pos hactive, hrun']
            rfl
          · simp only [outcome, Request.carryOut, RuleEngine.add, hcompile, if_neg hcontains,
              if_pos hactive, hrun']
            rfl
        · rw [Bool.not_eq_true] at hactive
          have hupholds := RunState.withSlot_spec h hnone
            (RunState.valid_of_compile hcompile).1 hactive
          refine ⟨(e.begin σ).withSlot (.new r), ?_, ?_, hupholds, rfl, rfl, fun id => ?_,
            fun _ _ => Iff.rfl⟩
          · simp only [opening, hcompile, if_neg hcontains, hactive, Bool.false_eq_true, if_false]
          · simp only [outcome, Request.carryOut, RuleEngine.add, hcompile, if_neg hcontains,
              hactive, Bool.false_eq_true, if_false]
            rfl
          · have hget : ((e.begin σ).withSlot (.new r)).engine.rule? id =
                ((e.slots.insert r.id (.new r)).get? id).map RuleSlot.rule := rfl
            rw [hget, OrderedMap.get?_insert, Request.rule?]
            split
            · rfl
            · rfl

private theorem remove_spec (h : (e.begin σ).Upholds clean .idle) (id : String) :
    (Turn.opening ⟨e, σ, .remove id⟩ = none ∧ ∃ error, e.remove σ id = e.refuse σ error) ∨
      ∃ s, Opens clean ⟨e, σ, .remove id⟩ s := by
  cases hget : e.slots.get? id with
  | none =>
      refine Or.inl ⟨?_, .unknownRule id, ?_⟩
      · simp only [opening, hget, Option.bind_none]
      · rw [RuleEngine.remove, hget]
  | some slot =>
      right
      obtain ⟨support, hclear, ⟨s, hsettle, hrefits⟩, _⟩ := RunState.deactivate_spec h hget
      have hdeactivate : RunState.deactivate (begin { e with slots := e.slots.erase id } σ) slot =
          .ok (⟨{ e with slots := e.slots.erase id, support }, σ, .empty⟩,
            { slot with firings := ∅, network := none }) :=
        RunState.deactivate_eq (s := begin { e with slots := e.slots.erase id } σ) hclear
      have hsettle' : RunState.settle .outside
          ⟨{ e with slots := e.slots.erase id, support }, σ, .empty⟩ = .ok s := hsettle
      refine ⟨s, .of_refits hrefits ?_ ?_ fun id' => ?_⟩
      · simp only [opening, hget, Option.bind_some, hdeactivate, Result.ok_bind, hsettle']
        rfl
      · simp only [outcome, Request.carryOut, RuleEngine.remove, hget, hdeactivate, Result.ok_bind,
          hsettle']
      · rw [OrderedMap.get?_erase, Request.rule?]
        split
        · rfl
        · rfl

private theorem switchOn_spec (h : (e.begin σ).Upholds clean .idle) {id : String} {old : RuleSlot}
    (hget : e.slots.get? id = some old) (hold : old.rule.active = false)
    (hapart : clean → ∀ r, (Request.setActive id true).SwitchesOn e r →
      r.condition.IsApart e.withdrawn) :
    ∃ s, Opens clean ⟨e, σ, .setActive id true⟩ s := by
  have hid := h.standing.ledger.tracks.named id old hget
  have htracks := h.standing.ledger.tracks.slots id old hget
  have hfirings : old.firings = ∅ := congrArg RuleSlot.firings (htracks.eq_of_inactive hold)
  have hslot := htracks.switchOn_eq hold
  have hvalid : Rule.problem? { old.rule with active := true } = none := htracks.valid
  obtain ⟨n, hcompile, _⟩ := RunState.compile_of_valid hvalid
  have hgranted : (Request.setActive id true).rule? e old.rule.id =
      some { old.rule with active := true } := by
    rw [hid, Request.rule?, if_pos rfl, rule?_eq hget, Option.map_some]
  have hresting : ¬ e.Runs { old.rule with active := true } := by
    rintro ⟨_, hrule⟩
    have hrule' : e.rule? id = some { old.rule with active := true } := hid ▸ hrule
    rw [rule?_eq hget, Option.some_inj] at hrule'
    exact Bool.false_ne_true (hold.symm.trans (congrArg Rule.active hrule'))
  obtain ⟨s, slots, hrun, hrefits, hrule⟩ :=
    RunState.activate_spec (r := { old.rule with active := true }) h (fun other hother => by
      have hother' : e.slots.get? old.rule.id = some other := hother
      rw [hid, hget] at hother'
      rw [← Option.some_inj.1 hother']
      exact hfirings) rfl (fun hc => hapart hc _ ⟨rfl, hgranted, hresting⟩) hcompile
  refine ⟨s, .of_refits hrefits ?_ ?_ fun id' => ?_⟩
  · simp only [opening, hget, Option.bind_some, hold, Bool.false_eq_true, if_false, if_true, hslot,
      hcompile, hrun]
    rfl
  · simp only [outcome, Request.carryOut, RuleEngine.setActive, hget, hold, Bool.false_eq_true,
      if_false, if_true, hslot, hcompile, hrun]
    rfl
  · have hid' : (e.begin σ).engine.rule? = e.rule? := rfl
    rw [hrule, Request.rule?, ← hid, hid']
    by_cases heq : old.rule.id = id'
    · have hrule' := rule?_eq hget
      rw [← hid, heq] at hrule'
      rw [if_pos heq, if_pos heq, hrule', Option.map_some]
    · rw [if_neg heq, if_neg heq]

private theorem switchOff_spec (h : (e.begin σ).Upholds clean .idle) {id : String} {old : RuleSlot}
    (hget : e.slots.get? id = some old) (hold : old.rule.active = true) :
    ∃ s, Opens clean ⟨e, σ, .setActive id false⟩ s := by
  have hid := h.standing.ledger.tracks.named id old hget
  obtain ⟨support, hclear, _, s, hsettle, hrefits⟩ := RunState.deactivate_spec h hget
  have hdeactivate := RunState.deactivate_eq (RunState.clear_switched false hclear)
  have hsettle' : RunState.settle .outside (RunState.withSlot
      ⟨{ e with support }, σ, .empty⟩ ⟨{ old.rule with active := false }, none, ∅⟩) = .ok s := by
    rw [RunState.withSlot, hid]
    exact hsettle
  refine ⟨s, .of_refits hrefits ?_ ?_ fun id' => ?_⟩
  · simp only [opening, hget, Option.bind_some, hold, Bool.true_eq_false, Bool.false_eq_true,
      if_false, hdeactivate, Result.ok_bind]
    simp only [begin, hsettle']
    rfl
  · simp only [outcome, Request.carryOut, RuleEngine.setActive, hget, hold, Bool.true_eq_false,
      Bool.false_eq_true, if_false, hdeactivate, Result.ok_bind]
    simp only [begin, hsettle', Result.ok_bind]
  · rw [OrderedMap.get?_insert, Request.rule?]
    split
    · rename_i heq
      rw [← heq, rule?_eq hget]
      rfl
    · rfl

private theorem setActive_spec (h : (e.begin σ).Upholds clean .idle) (id : String)
    (active : Bool) (hapart : clean → ∀ r, (Request.setActive id active).SwitchesOn e r →
      r.condition.IsApart e.withdrawn) :
    (Turn.opening ⟨e, σ, .setActive id active⟩ = none ∧
      ∃ error, e.setActive σ id active = e.refuse σ error) ∨
      ∃ s, Opens clean ⟨e, σ, .setActive id active⟩ s := by
  cases hget : e.slots.get? id with
  | none =>
      refine Or.inl ⟨?_, .unknownRule id, ?_⟩
      · simp only [opening, hget, Option.bind_none]
      · rw [RuleEngine.setActive, hget]
  | some old =>
      right
      by_cases hsame : old.rule.active = active
      · refine ⟨e.begin σ, ?_, ?_, h, rfl, rfl, fun id' => ?_, fun _ _ => Iff.rfl⟩
        · simp only [opening, hget, Option.bind_some, if_pos hsame]
        · simp only [outcome, Request.carryOut, RuleEngine.setActive, hget, if_pos hsame]
        · simp only [Request.rule?]
          split
          · rename_i heq
            have hrule : (e.begin σ).engine.rule? id = some old.rule := rule?_eq hget
            rw [← heq, hrule, rule?_eq hget, Option.map_some, ← hsame]
          · rfl
      · cases active with
        | true => exact switchOn_spec h hget (Bool.eq_false_iff.2 hsame) hapart
        | false => exact switchOff_spec h hget (Bool.not_eq_false _ ▸ hsame)

theorem outcome_spec (t : Turn) (h : (t.engine.begin t.store).Upholds clean .idle)
    (hapart : clean → ∀ r, t.request.SwitchesOn t.engine r →
      r.condition.IsApart t.engine.withdrawn) :
    (t.opening = none ∧ ∃ error, t.outcome = t.engine.refuse t.store error) ∨
      ∃ s, t.Opens clean s := by
  obtain ⟨e, σ, request⟩ := t
  cases request with
  | flush =>
      exact Or.inr ⟨e.begin σ, rfl, rfl, h, rfl, rfl, fun _ => rfl, fun _ _ => Iff.rfl⟩
  | add r => exact add_spec h r hapart
  | remove id => exact remove_spec h id
  | setActive id active => exact setActive_spec h id active hapart

end Turn

end Entail
