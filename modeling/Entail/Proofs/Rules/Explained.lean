import Entail.Proofs.Rules.Moments
import Entail.Proofs.Rules.Strata
/-!
# Explained failures

Every failure in a report belongs to a match, or a group, over what the store had at some moment, but for
some of the conclusions that it had then. A rule that neither denies conclusions nor sums them up fails
over all of it; any other may fail over contents that the store never had.
-/

namespace Entail

open RuleEngine

variable {σ₀ σ : Store} {e : RuleEngine} {told : List (Change Quad)} {request : Request}
  {s₀ : RunState}

/-- The request may bring a rule to run. -/
def Request.mayWake : Request → Bool
  | add r => r.active
  | setActive _ active => active
  | _ => false

/-! ## Before a run -/

namespace RunState.InStep

private theorem of_prepared {slots : OrderedMap String RuleSlot} {support : Support}
    {failures : List ConclusionFailure} (hfollows : Follows σ₀ told e σ)
    (htracks : Tracks { e with slots, support } fun _ held => Recalls σ₀ told e σ held)
    (hexplained : ∀ f ∈ failures, Explained σ₀ (told ++ e.queue σ) { e with slots, support } f)
    (hawaits : e.isRederiving = true → support.raised = [] ∧ ¬ e.Awaits σ)
    (hsettle : RunState.settle .outside
      ⟨{ e with slots, support }, σ, { FlushReport.empty with failures }⟩ = .ok s₀) :
    InStep σ₀ s₀ .idle := by
  have hprepared : Follows σ₀ told { e with slots, support } σ :=
    hfollows.relabel rfl rfl rfl rfl htracks
  exact of_settle
    (s := ⟨{ e with slots, support }, σ, { FlushReport.empty with failures }⟩) hprepared hexplained
    hawaits hsettle

private theorem of_wake {r : Rule} {n n' : Network} {p : Propagation}
    {failures : List ConclusionFailure} {slot : RuleSlot} {support : Support}
    (hfollows : Follows σ₀ told e σ) (hindexed : σ.contents.IsIndexed)
    (hnodup : ((e.queue σ).map Change.value).Nodup) (hidle : e.isRederiving = false)
    (hold : ∀ old, e.slots.get? r.id = some old → old.firings = ∅) (hvalid : r.problem? = none)
    (hactive : r.active = true) (hn : Network.compile r.condition = .ok n)
    (hprime : n.prime e.evaluator σ.contents = .ok (p, n'))
    (habsorb : RuleSlot.absorb e.evaluator e.graph ⟨r, some n', ∅⟩ e.support p =
      .ok (failures, slot, support)) (hrule : slot.rule = r)
    (hsettle : RunState.settle .outside
      ⟨{ e with slots := (e.slots.insert r.id ⟨r, none, ∅⟩).insert r.id slot, support }, σ,
        { FlushReport.empty with failures }⟩ = .ok s₀) : InStep σ₀ s₀ .idle := by
  have hrecalls : Recalls σ₀ told e σ σ.contents.Has :=
    hfollows.recalls_has hnodup (isRederiving_eq_false_iff.1 hidle).1
  obtain ⟨_, _, _, _, _, hprime', habsorb', _, htracks, _⟩ := hfollows.tracks.wake hold hvalid
    hactive hn hindexed hrecalls (fun _ _ => Iff.rfl) fun _ _ => Iff.rfl
  obtain ⟨rfl, rfl⟩ := Result.pair_eq_of_eq_ok hprime hprime'
  obtain ⟨rfl, hsame⟩ := Result.pair_eq_of_eq_ok habsorb habsorb'
  obtain ⟨rfl, rfl⟩ := Prod.mk.inj hsame
  refine of_prepared hfollows htracks (fun f hf => ?_) (fun hrederiving => ?_) hsettle
  · have hruns : Runs
        { e with slots := (e.slots.insert r.id ⟨r, none, ∅⟩).insert r.id slot, support } r := by
      refine ⟨hactive, Option.map_eq_some_iff.2 ⟨slot, ?_, hrule⟩⟩
      exact OrderedMap.get?_insert_self _ _ _
    have hrecalls' : Recalls σ₀ told
        { e with slots := (e.slots.insert r.id ⟨r, none, ∅⟩).insert r.id slot, support } σ
        σ.contents.Has := hrecalls.congr rfl rfl rfl
    exact hrecalls'.explains hruns (RuleSlot.failsOver_of_wake hn hindexed hprime habsorb f hf)
  · rw [hidle] at hrederiving
    cases hrederiving

private theorem of_rest {slot : RuleSlot} {support : Support} {slots : OrderedMap String RuleSlot}
    (h : InStep σ₀ (e.begin σ) .idle) (hget : e.slots.get? slot.rule.id = some slot)
    (hclear : slot.clear e.support = .ok ({ slot with firings := ∅ }, support))
    (hslots : slots = e.slots.erase slot.rule.id ∨
      slots = e.slots.insert slot.rule.id ⟨{ slot.rule with active := false }, none, ∅⟩)
    (hsettle : RunState.settle .outside ⟨{ e with slots, support }, σ, .empty⟩ = .ok s₀) :
    InStep σ₀ s₀ .idle := by
  obtain ⟨told, hfollows, _⟩ := h.moment
  obtain ⟨_, hclear', htracks, hevolves, htracks', hevolves'⟩ := hfollows.tracks.rest hget rfl
  obtain ⟨_, rfl⟩ := Result.pair_eq_of_eq_ok hclear hclear'
  have hrested : Tracks { e with slots, support } (fun _ held => Recalls σ₀ told e σ held) ∧
      ∀ q ∈ support.raised, q ∈ e.support.raised := by
    rcases hslots with rfl | rfl
    · refine ⟨htracks, fun q hq => ?_⟩
      rcases hevolves.raised_from q hq with hbefore | ⟨_, _, hnone, _⟩
      · exact hbefore
      · exact hnone.elim
    · refine ⟨htracks', fun q hq => ?_⟩
      rcases hevolves'.raised_from q hq with hbefore | ⟨_, _, hnone, _⟩
      · exact hbefore
      · exact hnone.elim
  have hraised : support.raised = [] := by
    refine List.eq_nil_iff_forall_not_mem.2 fun q hq => ?_
    have hbefore : q ∈ (e.begin σ).engine.support.raised := hrested.2 q hq
    rw [h.raised_eq] at hbefore
    exact List.not_mem_nil hbefore
  have hfollows' : Follows σ₀ told e σ :=
    hfollows.relabel rfl rfl rfl rfl hfollows.tracks
  have hawaits : e.isRederiving = true → support.raised = [] ∧ ¬ e.Awaits σ :=
    fun hrederiving => ⟨hraised, h.awaits (Or.inr hrederiving)⟩
  exact of_prepared hfollows' hrested.1 (fun f hf => absurd hf List.not_mem_nil) hawaits hsettle

theorem of_begins (h : InStep σ₀ (e.begin σ) .idle) (hindexed : σ.contents.IsIndexed)
    (hwakes : request.mayWake = true →
      ((e.queue σ).map Change.value).Nodup ∧ e.isRederiving = false)
    (hbegins : Turn.Begins e σ request s₀) : InStep σ₀ s₀ .idle := by
  obtain ⟨told, hbegin, _⟩ := h.moment
  have hfollows : Follows σ₀ told e σ := hbegin
  cases hbegins with
  | keep => exact h
  | @takeIn r hnone hvalid hactive =>
      have hadded : Follows σ₀ told { e with slots := e.slots.insert r.id (.new r) } σ :=
        hfollows.relabel rfl rfl rfl rfl (hfollows.tracks.add_idle hnone hvalid hactive)
      exact ⟨⟨told, hadded, fun f hf => absurd hf List.not_mem_nil⟩, h.raised_eq, h.awaits, nofun⟩
  | wake hrequest hold hvalid hactive hn hprime habsorb hrule hsettle =>
      have hwake : request.mayWake = true := by
        rcases hrequest with rfl | rfl
        · exact hactive
        · rfl
      obtain ⟨hnodup, hidle⟩ := hwakes hwake
      exact of_wake hfollows hindexed hnodup hidle hold hvalid hactive hn hprime habsorb hrule hsettle
  | rest hget hclear hslots hsettle =>
      exact h.of_rest hget hclear (hslots.imp And.right And.right) hsettle

end RunState.InStep

/-! ## Sessions -/

open RunState

namespace Session

/-- Whether a session stays in step: a rule may come to run when no quad waits twice and no pass is cut
short, and others keep out of the graph of the conclusions while one is. -/
def keepsStep (s : Session) : Event → Bool
  | .mutate m => !s.engine.isRederiving || m.quads.all fun q => q.graph ≠ s.engine.graph
  | .request request => !request.mayWake ||
    (decide ((s.engine.queue s.store).map Change.value).Nodup && !s.engine.isRederiving)

/-- Whether a session stays in step all the way. -/
def staysInStep (s : Session) : List Event → Bool
  | [] => true
  | event :: rest => s.keepsStep event && (s.carryOut event).staysInStep rest

/-- The networks of the engine know a moment of the history of the store. -/
structure IsInStep (config : Config) (σ₀ : Store) (s : Session) : Prop where
  confined : s.IsConfined config
  inStep : InStep σ₀ (s.engine.begin s.store) .idle

theorem isInStep_new (config : Config) (ev : Evaluator) (stored : List (Change Quad))
    (feed : ChangeFeed) :
    let opened := RuleEngine.new config ev ⟨Contents.empty.replay stored, feed⟩
    IsInStep config opened.2 ⟨opened.1, opened.2, []⟩ := by
  intro opened
  have hqueue : opened.1.queue opened.2 = [] := ChangeFeed.waiting_subscribe feed
  have hfollows : Follows opened.2 [] opened.1 opened.2 := by
    refine ⟨ChangeFeed.contains_subscribe feed, ?_, tracks_of_empty rfl rfl⟩
    rw [hqueue]
    exact .refl _ _
  have hnone : ¬ opened.1.Awaits opened.2 := by
    rintro ⟨q, _, hq⟩
    rw [hqueue] at hq
    exact List.not_mem_nil hq
  exact ⟨isConfined_new config ev stored feed, ⟨[], hfollows, fun f hf => absurd hf List.not_mem_nil⟩,
    rfl, fun _ => hnone, nofun⟩

private theorem IsInStep.mutate {config : Config} {s : Session} (h : s.IsInStep config σ₀)
    {m : Mutation} (hkeeps : s.keepsStep (.mutate m) = true) :
    (s.carryOut (.mutate m)).IsInStep config σ₀ := by
  obtain ⟨changes, hall, hannounces⟩ := m.announces s.store
  obtain ⟨told, hfollows, _⟩ := h.inStep.moment
  have hpublished := hfollows.publish hannounces
  refine ⟨h.confined.carryOut _, ⟨told, hpublished, fun f hf => absurd hf List.not_mem_nil⟩,
    h.inStep.raised_eq, fun hwaits => ?_, nofun⟩
  rintro ⟨q, hgraph, hq⟩
  have hrederiving : s.engine.isRederiving = true := hwaits.resolve_left fun hne => hne rfl
  have hq' : .gained q ∈ s.engine.queue s.store ++ changes :=
    hfollows.queue_publish hannounces ▸ hq
  rcases List.mem_append.1 hq' with hq' | hq'
  · exact h.inStep.awaits (Or.inr hrederiving) ⟨q, hgraph, hq'⟩
  · have hout : (m.quads.all fun q => q.graph ≠ s.engine.graph) = true := by
      rwa [keepsStep, hrederiving, Bool.not_true, Bool.false_or] at hkeeps
    exact of_decide_eq_true (List.all_eq_true.1 hout q (hall _ hq')) hgraph

private theorem IsInStep.request_cases {config : Config} {s : Session} (h : s.IsInStep config σ₀)
    {request : Request} (hkeeps : s.keepsStep (.request request) = true) :
    (∃ error, request.carryOut s.engine s.store = s.engine.refuse s.store error) ∨
      ∃ s₀ last : RunState, InStep σ₀ last .idle ∧
        (request.carryOut s.engine s.store).Leaves s₀ last := by
  have hbalanced := h.confined.balanced
  have hwakes : request.mayWake = true →
      ((s.engine.queue s.store).map Change.value).Nodup ∧ s.engine.isRederiving = false := by
    intro hwake
    rwa [keepsStep, hwake, Bool.not_true, Bool.false_or, Bool.and_eq_true, decide_eq_true_iff,
      Bool.not_eq_true'] at hkeeps
  have hends : ∀ s₀, Turn.Begins s.engine s.store request s₀ →
      EndsIn (fun last => InStep σ₀ last .idle) s₀.runToQuiet := by
    intro s₀ hbegins
    have hconfined := (Confined.begin_of hbalanced h.confined.queued).of_begins hbegins
    exact (h.inStep.of_begins hbalanced.indexed hwakes hbegins).run hconfined _
  rcases request.carryOut_cases hbalanced hends with ⟨error, _, hrefused⟩ | ⟨_, hcarried⟩
  · exact Or.inl ⟨error, hrefused⟩
  · exact Or.inr hcarried

private theorem IsInStep.carryOut {config : Config} {s : Session} (h : s.IsInStep config σ₀)
    {event : Event} (hkeeps : s.keepsStep event = true) :
    (s.carryOut event).IsInStep config σ₀ := by
  cases event with
  | mutate m => exact h.mutate hkeeps
  | request request =>
      refine ⟨h.confined.carryOut _, ?_⟩
      rcases h.request_cases hkeeps with ⟨error, heq⟩ | ⟨s₀, last, hlast, hleaves⟩
      · obtain ⟨hengine, hstore⟩ := carryOut_of_refused heq
        rw [hengine, hstore]
        exact h.inStep
      · have hbegin : (s.carryOut (.request request)).engine.begin
            (s.carryOut (.request request)).store = last.engine.begin last.store := hleaves.begin_eq
        rw [hbegin]
        obtain ⟨told, hfollows, _⟩ := hlast.moment
        exact ⟨⟨told, hfollows, fun f hf => absurd hf List.not_mem_nil⟩, hlast.raised_eq,
          hlast.awaits, nofun⟩

theorem isInStep_of_staysInStep {config : Config} {s : Session} {events : List Event}
    (h : s.IsInStep config σ₀) (hstays : s.staysInStep events = true) :
    (events.foldl Session.carryOut s).IsInStep config σ₀ := by
  induction events generalizing s with
  | nil => exact h
  | cons event rest ih =>
      rw [staysInStep, Bool.and_eq_true] at hstays
      exact ih (h.carryOut hstays.1) hstays.2

/-- Whatever the rules, as long as the session stays in step: every failure in a report is one of a
running rule, over what the store had at some moment since the engine was opened, but for some of the
conclusions it had then, which were withdrawn or already lost again. If the rule neither denies
conclusions nor sums them up, it fails over all that the store had at that moment. -/
theorem failures_explained (config : Config) (ev : Evaluator) (stored : List (Change Quad))
    (feed : ChangeFeed) (events : List Event) (request : Request) {report : FlushReport} :
    let opened := RuleEngine.new config ev ⟨Contents.empty.replay stored, feed⟩
    let s := events.foldl carryOut ⟨opened.1, opened.2, []⟩
    let o := request.carryOut s.engine s.store
    staysInStep ⟨opened.1, opened.2, []⟩ events = true → s.keepsStep (.request request) = true →
    o.answer = .ok report →
    ∃ changes, opened.2.Announces (· ≠ o.engine.subscription) changes o.store ∧
      ∀ f ∈ report.failures, ∃ r past gone, o.engine.Runs r ∧ past <+: changes ∧
        (∀ q, gone q → (opened.2.contents.replay past).Has q ∧ q.graph = o.engine.graph) ∧
        r.FailsOver o.engine.evaluator o.engine.graph (opened.2.moment past gone) f ∧
        (r.condition.IsMonotoneIn o.engine.graph → r.FailsOver o.engine.evaluator o.engine.graph
          (opened.2.contents.replay past).Has f) := by
  intro opened s o hstays hkeeps hanswer
  have hs : s.IsInStep config opened.2 :=
    isInStep_of_staysInStep (isInStep_new config ev stored feed) hstays
  rcases hs.request_cases hkeeps with ⟨error, hrefused⟩ | ⟨s₀, last, hlast, hleaves⟩
  · have hanswer' : (request.carryOut s.engine s.store).answer = .ok report := hanswer
    rw [hrefused] at hanswer'
    cases hanswer'
  · obtain ⟨told, hfollows, hexplained⟩ := hlast.moment
    obtain ⟨_, hreport⟩ := hleaves.of_answer hanswer
    have hengine : o.engine = last.engine := hleaves.engine_eq
    have hstore : o.store = last.store := hleaves.store_eq
    rw [hengine, hstore]
    refine ⟨_, hfollows.announces, fun f hf => ?_⟩
    rw [hreport] at hf
    obtain ⟨r, past, left, hr, hpast, hleft, hfails⟩ := hexplained f hf
    refine ⟨r, past, left, hr, hpast, hleft, hfails, fun hmono => ?_⟩
    -- what was left out are conclusions, so outside their graph the store had nothing else
    have hsame : ∀ q, q.graph ≠ last.engine.graph →
        (opened.2.moment past left q ↔ (opened.2.contents.replay past).Has q) :=
      fun q hq => and_iff_left fun hgone => hq (hleft q hgone).2
    exact hfails.mono hmono (fun _ hq => hq.1) hsame

/-- What has the value 4 has its own negative as its opposite, unless it is of an excluding kind. -/
def opposite (excluding : Option String) : Rule :=
  { classify "opposite" "p" "4" excluding "" with
    conclusions := [⟨.variable ⟨"x"⟩, .node (.iri "opposite"),
      .computed (.unary .negate (.variable ⟨"x"⟩))⟩] }

/-- The name of a thing has no negative: a failure for a match that the store had. -/
theorem failures_explained_of_opposite :
    let opened := RuleEngine.new .default .standard ⟨Contents.empty.replay [], .empty⟩
    let s := List.foldl carryOut ⟨opened.1, opened.2, []⟩
      [.request (.add (opposite none)), .mutate (.insert (hasValue "4"))]
    let o := Request.flush.carryOut s.engine s.store
    ∃ report f changes past, o.answer = .ok report ∧ f ∈ report.failures ∧
      opened.2.Announces (· ≠ o.engine.subscription) changes o.store ∧ past <+: changes ∧
      (opposite none).FailsOver o.engine.evaluator o.engine.graph
        (opened.2.contents.replay past).Has f := by
  intro opened s o
  obtain ⟨hstays, hkeeps, hanswer, hrule⟩ :
      staysInStep ⟨opened.1, opened.2, []⟩
        [.request (.add (opposite none)), .mutate (.insert (hasValue "4"))] = true ∧
      s.keepsStep (.request .flush) = true ∧
      o.answer.toOption.any (fun report => report.failures.any (·.rule == "opposite")) = true ∧
      o.engine.rule? "opposite" = some (opposite none) := by
    decide +kernel
  cases hreport : o.answer with
  | error cause =>
      rw [hreport] at hanswer
      cases hanswer
  | ok report =>
      rw [hreport] at hanswer
      obtain ⟨f, hf, hname⟩ := List.any_eq_true.1 hanswer
      obtain ⟨changes, hannounces, hall⟩ := failures_explained .default .standard [] .empty
        [.request (.add (opposite none)), .mutate (.insert (hasValue "4"))] .flush hstays hkeeps
        hreport
      obtain ⟨r, past, _, hruns, hpast, _, hfails, hover⟩ := hall f hf
      have hid : r.id = "opposite" := hfails.1.symm.trans (beq_iff_eq.1 hname)
      have hr := hruns.2
      rw [hid, hrule] at hr
      obtain rfl := Option.some_inj.1 hr
      have hpositive : (opposite none).IsPositive := ⟨rfl, rfl⟩
      exact ⟨report, f, changes, past, rfl, hf, hannounces, hpast, hover (hpositive.isMonotoneIn _)⟩

/-! ## A match that the store never had -/

/-- Whether nothing comes out of a condition over some contents. -/
def silentOver (ev : Evaluator) (c : Condition) (contents : Contents) : Bool :=
  ((Network.compile c).toOption.bind fun n => (n.prime ev contents).toOption).any
    fun result => result.1.changes.isEmpty

private theorem not_isOutput_of_silentOver {ev : Evaluator} {c : Condition} {contents : Contents}
    (hindexed : contents.IsIndexed) (h : silentOver ev c contents = true) (t : Token) :
    ¬ c.IsOutput ev contents.Has t := by
  unfold silentOver at h
  cases hn : Network.compile c with
  | error error =>
      rw [hn] at h
      cases h
  | ok n =>
      obtain ⟨p, n', hprime, _, _, halters⟩ := Network.prime_spec ev hn hindexed
      have hprimed : (n.prime ev contents).toOption = some (p, n') := by
        rw [hprime]
        rfl
      rw [hn] at h
      have hnone : p.changes = [] := by
        have hempty : ((n.prime ev contents).toOption).any
            (fun result => result.1.changes.isEmpty) = true := h
        rw [hprimed] at hempty
        exact List.isEmpty_iff.1 hempty
      intro hout
      have ht := (halters.gained_iff t).2 ⟨hout, id⟩
      rw [hnone] at ht
      exact List.not_mem_nil ht

/-- Something is an M for two values, and has an opposite unless it is an M. It loses one of the two. -/
def withdrawingEvents : List Event :=
  [.request (.add (classify "m1" "p" "1" none "M")),
    .request (.add (classify "m2" "p" "2" none "M")),
    .request (.add (opposite (some "M"))),
    .mutate (.apply ⟨[hasValue "1", hasValue "2"], []⟩),
    .request .flush,
    .mutate (.insert (hasValue "4")),
    .request .flush,
    .mutate (.remove (hasValue "1"))]

/-- The flush stores and removes nothing. All the same it reports a failure to compute the opposite,
which the rule finds while the M is withdrawn: at no moment did the store have a match of it. -/
theorem failure_of_withdrawn :
    let opened := RuleEngine.new .default .standard
      ⟨Contents.empty.replay [], ChangeFeed.empty.subscribe.2⟩
    let s := withdrawingEvents.foldl carryOut ⟨opened.1, opened.2, []⟩
    let o := Request.flush.carryOut s.engine s.store
    let r := opposite (some "M")
    IsStratified .standard o.engine.graph o.engine.activeRules byNegation ∧ o.engine.Runs r ∧
      ∃ report f changes, o.answer = .ok report ∧ report.materialized = 0 ∧ report.retracted = 0 ∧
        f ∈ report.failures ∧ f.rule = r.id ∧
        opened.2.Announces (· ≠ o.engine.subscription) changes o.store ∧
        ∀ past, past <+: changes →
          ∀ t, ¬ r.condition.IsOutput o.engine.evaluator (opened.2.contents.replay past).Has t := by
  intro opened s o r
  obtain ⟨habove, hrule, hstays, hkeeps, hanswer, hopen, hnone, hother, hsilent⟩ :
      o.engine.activeRules.all (Rule.isAbove o.engine.graph byNegation o.engine.activeRules) =
        true ∧
      o.engine.rule? r.id = some r ∧
      staysInStep ⟨opened.1, opened.2, []⟩ withdrawingEvents = true ∧
      s.keepsStep (.request .flush) = true ∧
      o.answer.toOption.any (fun report => report.materialized == 0 && report.retracted == 0 &&
        report.failures.any (·.rule == r.id)) = true ∧
      opened.2.feed.buffers.contains 0 = true ∧ opened.2.feed.waiting 0 = [] ∧
      0 ≠ o.engine.subscription ∧
      (o.store.feed.waiting 0).inits.all (fun past =>
        silentOver o.engine.evaluator r.condition (opened.2.contents.replay past)) = true := by
    decide +kernel
  have hs : s.IsInStep .default opened.2 := isInStep_of_staysInStep
    (isInStep_new .default .standard [] ChangeFeed.empty.subscribe.2) hstays
  obtain ⟨told, hfollows, _⟩ := (hs.carryOut hkeeps).inStep.moment
  have hannounces : opened.2.Announces (· ≠ o.engine.subscription) (told ++ o.engine.queue o.store)
      o.store := hfollows.announces
  have hwaiting := (hannounces.waiting 0 hother hopen).2
  rw [hnone, List.nil_append] at hwaiting
  cases hreport : o.answer with
  | error cause =>
      rw [hreport] at hanswer
      cases hanswer
  | ok report =>
      rw [hreport] at hanswer
      have hanswer' : (report.materialized == 0 && report.retracted == 0 &&
        report.failures.any (·.rule == r.id)) = true := hanswer
      rw [Bool.and_eq_true, Bool.and_eq_true, beq_iff_eq, beq_iff_eq] at hanswer'
      obtain ⟨⟨hmaterialized, hretracted⟩, hfailures⟩ := hanswer'
      obtain ⟨f, hf, hname⟩ := List.any_eq_true.1 hfailures
      refine ⟨isStratified_of_isAbove _ habove, ⟨rfl, hrule⟩, report, f, _, rfl, hmaterialized,
        hretracted, hf, beq_iff_eq.1 hname, hannounces, fun past hpast t => ?_⟩
      rw [← hwaiting] at hpast
      refine not_isOutput_of_silentOver (Contents.isIndexed_empty.replay past) ?_ t
      exact List.all_eq_true.1 hsilent past ((List.mem_inits past _).2 hpast)

end Session

end Entail
