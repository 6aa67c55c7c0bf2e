import Entail.Proofs.Rules.Accounting
import Entail.Proofs.Rules.Effects
/-!
# Confinement

Whatever the rules, and whatever others write, an engine touches nothing but the graph of its
conclusions. The quads that it has queued are all well-formed and of that graph, so the store refuses
none of them, and a request can fail only by being refused at once or by taking too many rounds.
-/

namespace Entail

open RuleEngine

/-- The quads queued for a look or for the end of a pass. -/
def RuleEngine.Queues (e : RuleEngine) (q : Quad) : Prop :=
  q ∈ e.suspects ∨ q ∈ e.withdrawn ∨ q ∈ e.deferred ∨ q ∈ e.support.raised ∨
    q ∈ e.support.lowered

theorem RuleEngine.queue_of_announces {e : RuleEngine} {σ σ' : Store} {changes : List (Change Quad)}
    (h : σ.feed.buffers.contains e.subscription = true)
    (ha : σ.Announces (fun _ => True) changes σ') : e.queue σ' = e.queue σ ++ changes := by
  rw [queue, queue, (ha.waiting e.subscription trivial h).2, List.append_assoc]

/-- Only conclusions in the graph came and went, one after the other, and all subscriptions but one's
own were told. -/
def Store.ChangesWithin (graph : Node) (own : Nat) (σ σ' : Store) : Prop :=
  ∃ changes, (∀ c ∈ changes, c.value.IsConclusion graph) ∧ σ.Announces (· ≠ own) changes σ'

/-- The round withdraws nothing but a conclusion. -/
def Round.IsWithin (graph : Node) : Round → Prop
  | .withdraw q => q.IsConclusion graph
  | _ => True

namespace RunState

variable {e₀ : RuleEngine} {σ₀ : Store} {s s' : RunState} {q : Quad} {phase : Phase} {round : Round}
  {progress : Progress}

/-- The run, which began with the engine `e₀` on the store `σ₀`, has kept to the graph of the
conclusions. -/
structure Confined (e₀ : RuleEngine) (σ₀ : Store) (s : RunState) : Prop where
  balanced : s.Balanced
  config_eq : s.engine.config = e₀.config
  subscription_eq : s.engine.subscription = e₀.subscription
  queued : ∀ q, s.engine.Queues q → q.IsConclusion e₀.graph
  changes : σ₀.ChangesWithin e₀.graph e₀.subscription s.store

namespace Confined

theorem graph_eq (h : Confined e₀ σ₀ s) : s.engine.graph = e₀.graph := by
  rw [graph, graph, h.config_eq]

private theorem relabel (h : Confined e₀ σ₀ s) {e : RuleEngine} {report : FlushReport}
    (hbalanced : Balanced ⟨e, s.store, report⟩) (hconfig : e.config = s.engine.config)
    (hsubscription : e.subscription = s.engine.subscription)
    (hqueued : ∀ q, e.Queues q → s.engine.Queues q ∨ q.IsConclusion e₀.graph) :
    Confined e₀ σ₀ ⟨e, s.store, report⟩ where
  balanced := hbalanced
  config_eq := hconfig.trans h.config_eq
  subscription_eq := hsubscription.trans h.subscription_eq
  queued q hq := (hqueued q hq).elim (h.queued q) id
  changes := h.changes

private theorem publish (h : Confined e₀ σ₀ s) {store : Store} {report : FlushReport}
    (hbalanced : Balanced { s with store, report })
    (hstore : store = s.store ∨ ∃ c : Change Quad, c.value.IsConclusion e₀.graph ∧
      c.IsFresh s.store.contents.Has ∧ store = s.store.take c) :
    Confined e₀ σ₀ { s with store, report } := by
  refine ⟨hbalanced, h.config_eq, h.subscription_eq, h.queued, ?_⟩
  rcases hstore with rfl | ⟨c, hc, hfresh, rfl⟩
  · exact h.changes
  · obtain ⟨changes, hall, hannounces⟩ := h.changes
    refine ⟨changes ++ [c], fun x hx => ?_, hannounces.trans (.take hfresh)⟩
    rcases List.mem_append.1 hx with hx | hx
    · exact hall x hx
    · exact List.mem_singleton.1 hx ▸ hc

/-! ## Settling -/

private theorem conclusion_of_total_pos (h : Confined e₀ σ₀ s)
    (hpos : 0 < s.engine.support.total q) : q.IsConclusion e₀.graph := by
  obtain ⟨r, t, _, hconcludes⟩ := h.balanced.tracks.total_pos_iff.1 hpos
  exact h.graph_eq ▸ hconcludes.isConclusion

private theorem of_release (h : Confined e₀ σ₀ s) (hrun : s.release q = .ok s') :
    Confined e₀ σ₀ s' := by
  have hbalanced := h.balanced.of_release hrun
  rcases release_cases hrun with ⟨rfl, _⟩ | ⟨hpos, hnot, rfl⟩
  · exact h
  · exact h.publish hbalanced
      (Or.inr ⟨.gained q, h.conclusion_of_total_pos hpos, hnot, rfl⟩)

private theorem retract (h : Confined e₀ σ₀ s) (hq : q.IsConclusion e₀.graph) :
    Confined e₀ σ₀ (s.retract q) := by
  have hbalanced := h.balanced.retract q
  obtain ⟨store, report, hrun, hstore⟩ := retract_spec s q
  rw [hrun] at hbalanced ⊢
  refine h.publish hbalanced (hstore.imp And.left ?_)
  rintro ⟨hhas, htake⟩
  exact ⟨.lost q, hq, hhas, htake⟩

private theorem of_acts {raised lowered : List Quad} (h : Confined e₀ σ₀ s)
    (hraised : ∀ q ∈ raised, q.IsConclusion e₀.graph)
    (hlowered : ∀ q ∈ lowered, q.IsConclusion e₀.graph) (hacts : Acts phase raised lowered s s') :
    Confined e₀ σ₀ s' := by
  induction hacts with
  | refl => exact h
  | @suspect _ q _ _ hq hfrom ih =>
      refine ih.relabel (ih.balanced.relabel _ _ _ _ _) rfl rfl fun x hx => ?_
      rcases hx with hx | hx
      · rcases hfrom x hx with rfl | hx
        · exact Or.inr (hlowered x hq)
        · exact Or.inl (Or.inl hx)
      · exact Or.inl (Or.inr hx)
  | @holdBack _ q _ hq _ ih =>
      refine ih.relabel (ih.balanced.relabel _ _ _ _ _) rfl rfl fun x hx => ?_
      rcases hx with hx | hx | hx | hx
      · exact Or.inl (Or.inl hx)
      · exact Or.inl (Or.inr (Or.inl hx))
      · rcases OrderedSet.mem_insert.1 hx with rfl | hx
        · exact Or.inr (hraised q hq)
        · exact Or.inl (Or.inr (Or.inr (Or.inl hx)))
      · exact Or.inl (Or.inr (Or.inr (Or.inr hx)))
  | release _ _ _ hrun ih => exact ih.of_release hrun
  | retract _ hq _ _ ih => exact ih.retract (hlowered _ hq)

private theorem taken (h : Confined e₀ σ₀ s) : Confined e₀ σ₀ s.taken := by
  have hbalanced : s.taken.Balanced :=
    ⟨h.balanced.indexed, h.balanced.tracks.named, h.balanced.tracks.slots,
      h.balanced.tracks.accounts.settled⟩
  refine h.relabel hbalanced rfl rfl fun x hx => Or.inl ?_
  rcases hx with hx | hx | hx | hx | hx
  · exact Or.inl hx
  · exact Or.inr (Or.inl hx)
  · exact Or.inr (Or.inr (Or.inl hx))
  · exact absurd hx List.not_mem_nil
  · exact absurd hx List.not_mem_nil

private theorem of_settle (h : Confined e₀ σ₀ s) (hrun : s.settle phase = .ok s') :
    Confined e₀ σ₀ s' := by
  refine h.taken.of_acts (fun q hq => h.queued q ?_) (fun q hq => h.queued q ?_) (settle_acts hrun)
  · exact Or.inr (Or.inr (Or.inr (Or.inl hq)))
  · exact Or.inr (Or.inr (Or.inr (Or.inr hq)))

/-! ## One round -/

private theorem start (h : Confined e₀ σ₀ s) (hround : round.IsWithin e₀.graph) :
    Confined e₀ σ₀ (s.start round) := by
  cases round with
  | propagate c => exact h.relabel (h.balanced.relabel _ _ _ _ _) rfl rfl fun _ => Or.inl
  | withdraw q =>
      refine h.relabel (h.balanced.relabel _ _ _ _ _) rfl rfl fun x hx => ?_
      rcases hx with hx | hx | hx
      · exact Or.inl (Or.inl (OrderedSet.mem_erase.1 hx).2)
      · rcases OrderedSet.mem_insert.1 hx with rfl | hx
        · exact Or.inr hround
        · exact Or.inl (Or.inr (Or.inl hx))
      · exact Or.inl (Or.inr (Or.inr hx))
  | reinstate q =>
      refine h.relabel (h.balanced.relabel _ _ _ _ _) rfl rfl fun x hx => Or.inl ?_
      rcases hx with hx | hx | hx
      · exact Or.inl hx
      · exact Or.inr (Or.inl (OrderedSet.mem_erase.1 hx).2)
      · exact Or.inr (Or.inr hx)

private theorem evolve (h : Confined e₀ σ₀ s) {e : RuleEngine} {report : FlushReport}
    {gains loses : Rule → Token → Prop} (hbalanced : Balanced ⟨e, s.store, report⟩)
    (hsame : s.engine.SameBut e) (hevolves : s.engine.Evolves e gains loses) :
    Confined e₀ σ₀ ⟨e, s.store, report⟩ := by
  refine h.relabel hbalanced hsame.config_eq hsame.subscription_eq fun q hq => ?_
  have hconcluded : ∀ {p : Rule → Token → Prop},
      (∃ r t, p r t ∧ r.Concludes s.engine.evaluator s.engine.graph t q) →
      q.IsConclusion e₀.graph := by
    rintro p ⟨r, t, _, hconcludes⟩
    exact h.graph_eq ▸ hconcludes.isConclusion
  rcases hq with hq | hq | hq | hq | hq
  · exact Or.inl (Or.inl (hsame.suspects_eq ▸ hq))
  · exact Or.inl (Or.inr (Or.inl (hsame.withdrawn_eq ▸ hq)))
  · exact Or.inl (Or.inr (Or.inr (Or.inl (hsame.deferred_eq ▸ hq))))
  · exact (hevolves.raised_from q hq).imp
      (fun hx => Or.inr (Or.inr (Or.inr (Or.inl hx)))) hconcluded
  · exact (hevolves.lowered_from q hq).imp
      (fun hx => Or.inr (Or.inr (Or.inr (Or.inr hx)))) hconcluded

private theorem of_inject {c : Change Quad} (h : Confined e₀ σ₀ s) (hrun : s.inject c = .ok s') :
    Confined e₀ σ₀ s' := by
  have hbalanced := h.balanced.of_inject hrun
  obtain ⟨failures, e, htold, _, rfl⟩ := inject_eq_ok hrun
  obtain ⟨_, _, htold', hsame, _, _, hevolves⟩ := h.balanced.tracks.inject c
  obtain ⟨rfl, rfl⟩ := Result.pair_eq_of_eq_ok htold htold'
  exact h.evolve hbalanced hsame hevolves

private theorem of_perform (h : Confined e₀ σ₀ s) (hround : round.IsWithin e₀.graph)
    (hrun : s.perform round = .ok s') : Confined e₀ σ₀ s' := by
  obtain ⟨s₁, hinject, hsettle⟩ := Result.bind_eq_ok_iff.1 hrun
  have htold := (h.start hround).of_inject hinject
  exact htold.of_settle hsettle

/-! ## A run -/

private theorem nextSuspect (h : Confined e₀ σ₀ s) : Confined e₀ σ₀ s.nextSuspect.2 := by
  refine h.relabel (h.balanced.relabel _ _ _ _ _) rfl rfl fun q hq => Or.inl ?_
  refine hq.imp_left fun hlive => ?_
  have hmem := (List.dropWhile_sublist s.isStale).subset (OrderedSet.mem_ofList.1 hlive)
  exact OrderedSet.mem_toList_iff.1 hmem

private theorem takeChanges (h : Confined e₀ σ₀ s) : Confined e₀ σ₀ s.takeChanges := by
  have hbalanced := h.balanced.takeChanges
  unfold RunState.takeChanges at hbalanced ⊢
  split at hbalanced
  · rename_i hempty
    rw [if_pos hempty]
    obtain ⟨changes, hall, hannounces⟩ := h.changes
    refine ⟨hbalanced, h.config_eq, h.subscription_eq, h.queued, changes, hall, ?_⟩
    have hdrain := Store.Announces.drain s.store s.engine.subscription
    rw [h.subscription_eq] at hdrain
    rw [← List.append_nil changes, h.subscription_eq]
    exact hannounces.trans hdrain
  · rename_i hsome
    rw [if_neg hsome]
    exact h

private theorem of_finalize (h : Confined e₀ σ₀ s) (hrun : s.finalize = .ok s') :
    Confined e₀ σ₀ s' := by
  have hcleared : Confined e₀ σ₀ { s with engine :=
      { s.engine with withdrawn := ∅, deferred := ∅ } } := by
    refine h.relabel (h.balanced.relabel _ _ _ _ _) rfl rfl fun x hx => Or.inl ?_
    rcases hx with hx | hx | hx | hx
    · exact Or.inl hx
    · exact absurd hx (OrderedSet.not_mem_empty x)
    · exact absurd hx (OrderedSet.not_mem_empty x)
    · exact Or.inr (Or.inr (Or.inr hx))
  have hwithdrawn : ∀ q ∈ s.engine.withdrawn.toList, q.IsConclusion e₀.graph :=
    fun q hq => h.queued q (Or.inr (Or.inl (OrderedSet.mem_toList_iff.1 hq)))
  have hretracted := Result.foldl_inv (l := s.engine.withdrawn.toList)
    (fun (s' : RunState) rest => Confined e₀ σ₀ s' ∧ ∀ q ∈ rest, q.IsConclusion e₀.graph)
    (fun s' q rest hs => by
      obtain ⟨hq, hrest⟩ := List.forall_mem_cons.1 hs.2
      exact ⟨hs.1.retract hq, hrest⟩) ⟨hcleared, hwithdrawn⟩
  exact Result.foldlM_inv (fun (s' : RunState) _ => Confined e₀ σ₀ s')
    (fun _ _ _ _ hs hrelease => hs.of_release hrelease) hretracted.1 hrun

/-- A quad is withdrawn only if it is suspected, and so is a conclusion. -/
theorem isWithin (h : Confined e₀ σ₀ s) (hready : s.Ready round progress) :
    round.IsWithin e₀.graph := by
  cases hready with
  | propagate => trivial
  | withdraw hsuspect => exact h.queued _ (Or.inl hsuspect)
  | reinstate => trivial

theorem isKept (e₀ : RuleEngine) (σ₀ : Store) : IsKept (Confined e₀ σ₀) where
  drain := takeChanges
  look := nextSuspect
  perform h hready := by
    obtain ⟨s', hrun, _⟩ := h.balanced.perform _
    exact ⟨s', hrun, h.of_perform (h.isWithin hready) hrun⟩
  finish h _ := by
    obtain ⟨s', hrun, _⟩ := h.balanced.finalize
    exact ⟨s', hrun, h.of_finalize hrun⟩

/-! ## Before the run -/

theorem begin_of (hbalanced : (e₀.begin σ₀).Balanced)
    (hqueued : ∀ q, e₀.Queues q → q.IsConclusion e₀.graph) : Confined e₀ σ₀ (e₀.begin σ₀) :=
  ⟨hbalanced, rfl, rfl, hqueued, [], fun _ hc => absurd hc List.not_mem_nil, .refl _ σ₀⟩

theorem begin (h : Confined e₀ σ₀ s) : Confined e₀ σ₀ (s.engine.begin s.store) :=
  ⟨h.balanced.begin, h.config_eq, h.subscription_eq, h.queued, h.changes⟩

theorem of_begins {request : Request} (h : Confined e₀ σ₀ (e₀.begin σ₀))
    (hbegins : Turn.Begins e₀ σ₀ request s) : Confined e₀ σ₀ s := by
  rcases hbegins.prepared h.balanced with ⟨slots, htracks, rfl⟩ |
    ⟨slots, support, failures, _, _, htracks, hevolves, hsettle⟩
  · exact ⟨⟨h.balanced.indexed, htracks⟩, rfl, rfl, h.queued, h.changes⟩
  · have hevolved : Confined e₀ σ₀
        ⟨{ e₀ with slots, support }, σ₀, { FlushReport.empty with failures }⟩ :=
      h.evolve ⟨h.balanced.indexed, htracks⟩ ⟨rfl, rfl, rfl, rfl, rfl, rfl, rfl⟩ hevolves
    exact hevolved.of_settle hsettle

end Confined

end RunState

/-! ## Requests -/

/-- The request was carried out, within the graph of the conclusions, or given up when it took too
many rounds. -/
structure Outcome.IsConfined (e : RuleEngine) (σ : Store) (o : Outcome) : Prop where
  confined : RunState.Confined e σ (o.engine.begin o.store)
  answered : (∃ report, o.answer = .ok report) ∨ ∃ activity, o.answer =
    .error (.error (.roundsExceeded e.config.maxRounds (some activity)))

theorem Outcome.IsConfined.carryOut_cases {e : RuleEngine} {σ : Store}
    (h : RunState.Confined e σ (e.begin σ)) (request : Request) :
    (∃ error, request.refusal? e = some error ∧ request.carryOut e σ = e.refuse σ error) ∨
      (request.refusal? e = none ∧ (request.carryOut e σ).IsConfined e σ) := by
  have hends : ∀ s₀, Turn.Begins e σ request s₀ →
      RunState.EndsIn (RunState.Confined e σ) s₀.runToQuiet := fun s₀ hbegins =>
    (RunState.Confined.isKept e σ).runToQuiet (h.of_begins hbegins)
  refine (request.carryOut_cases h.balanced hends).imp_right ?_
  rintro ⟨hnone, s₀, last, hlast, hleaves⟩
  refine ⟨hnone, ?_, ?_⟩
  · rw [hleaves.begin_eq]
    exact hlast.begin
  · rcases hleaves.answered with ⟨_, hanswer⟩ | ⟨activity, hanswer⟩
    · exact Or.inl ⟨last.report, hanswer⟩
    · rw [hlast.config_eq] at hanswer
      exact Or.inr ⟨activity, hanswer⟩

/-! ## Sessions -/

namespace Session

/-- The engine keeps its configuration, and queues nothing but conclusions. -/
structure IsConfined (config : Config) (s : Session) : Prop where
  balanced : (s.engine.begin s.store).Balanced
  config_eq : s.engine.config = config
  queued : ∀ q, s.engine.Queues q → q.IsConclusion s.engine.graph

theorem isConfined_new (config : Config) (ev : Evaluator) (stored : List (Change Quad))
    (feed : ChangeFeed) :
    IsConfined config ⟨(RuleEngine.new config ev ⟨Contents.empty.replay stored, feed⟩).1,
      (RuleEngine.new config ev ⟨Contents.empty.replay stored, feed⟩).2, []⟩ where
  balanced := (isBalanced_new config ev stored feed).balanced
  config_eq := rfl
  queued q hq := by
    rcases hq with hq | hq | hq | hq | hq
    · exact absurd hq (OrderedSet.not_mem_empty q)
    · exact absurd hq (OrderedSet.not_mem_empty q)
    · exact absurd hq (OrderedSet.not_mem_empty q)
    · exact absurd hq List.not_mem_nil
    · exact absurd hq List.not_mem_nil

theorem IsConfined.carryOut {config : Config} {s : Session} (h : s.IsConfined config)
    (event : Event) : (s.carryOut event).IsConfined config := by
  cases event with
  | mutate m =>
      obtain ⟨changes, _, hannounces⟩ := m.announces s.store
      have hcontents : (m.carryOut s.store).contents = s.store.contents.replay changes :=
        hannounces.contents_eq
      exact ⟨⟨hcontents ▸ h.balanced.indexed.replay changes, h.balanced.tracks⟩, h.config_eq,
        h.queued⟩
  | request request =>
      have hbegin := RunState.Confined.begin_of h.balanced h.queued
      rcases Outcome.IsConfined.carryOut_cases hbegin request with ⟨error, _, heq⟩ | ⟨_, ho⟩
      · obtain ⟨hengine, hstore⟩ := carryOut_of_refused heq
        refine ⟨?_, hengine ▸ h.config_eq, hengine ▸ h.queued⟩
        rw [hengine, hstore]
        exact h.balanced
      · refine ⟨ho.confined.balanced, ho.confined.config_eq.trans h.config_eq, fun q hq => ?_⟩
        exact ho.confined.graph_eq ▸ ho.confined.queued q hq

theorem IsConfined.run {config : Config} {s : Session} (h : s.IsConfined config)
    (events : List Event) : (events.foldl Session.carryOut s).IsConfined config :=
  Result.foldl_inv (fun (s : Session) _ => s.IsConfined config)
    (fun _ event _ hs => hs.carryOut event) h

/-- Whatever the rules and the requests, and whatever others write, at any moment:

* a request brings nothing into the store and takes nothing out of it but well-formed quads in the
  graph of the conclusions;
* it is refused for a name that is taken or unknown, or for a rule that is not well-formed, and then
  the engine and the store are what they were;
* or it is carried out, and then it is answered or runs out of rounds.

To ask how far a rule gets can fail only for an unknown name, and to open the engine or to detach it
changes nothing that is stored. -/
theorem requests_confined (config : Config) (ev : Evaluator) (stored : List (Change Quad))
    (feed : ChangeFeed) (events : List Event) (request : Request) :
    let opened := RuleEngine.new config ev ⟨Contents.empty.replay stored, feed⟩
    let s := events.foldl carryOut ⟨opened.1, opened.2, []⟩
    let o := request.carryOut s.engine s.store
    s.store.ChangesWithin (.iri config.inferenceGraph) s.engine.subscription o.store ∧
      ((∃ error, request.refusal? s.engine = some error ∧ o.engine = s.engine ∧
          o.store = s.store ∧ o.answer = .error (.error error)) ∨
        (request.refusal? s.engine = none ∧ ((∃ report, o.answer = .ok report) ∨
          ∃ activity, o.answer =
            .error (.error (.roundsExceeded config.maxRounds (some activity)))))) ∧
      (∀ id error, s.engine.matchStatus id = .error error → error = .unknownRule id) ∧
      opened.2.contents = Contents.empty.replay stored ∧
      (s.engine.detach s.store).contents = s.store.contents := by
  intro opened s o
  have hs : s.IsConfined config := Result.foldl_inv (fun (s : Session) _ => s.IsConfined config)
    (fun _ event _ h => h.carryOut event) (isConfined_new config ev stored feed)
  have hgraph : s.engine.graph = .iri config.inferenceGraph := by
    rw [graph, hs.config_eq]
  have hstatus : ∀ id error, s.engine.matchStatus id = .error error → error = .unknownRule id := by
    intro id error herror
    unfold matchStatus at herror
    split at herror
    · exact (Except.error.inj herror).symm
    · cases herror
  have hbegin := RunState.Confined.begin_of hs.balanced hs.queued
  rcases Outcome.IsConfined.carryOut_cases hbegin request with ⟨error, hrefusal, heq⟩ | ⟨hnone, ho⟩
  · have ho : o = s.engine.refuse s.store error := heq
    refine ⟨?_, Or.inl ⟨error, hrefusal, by rw [ho]; rfl, by rw [ho]; rfl, by rw [ho]; rfl⟩, hstatus,
      rfl, rfl⟩
    rw [ho, ← hgraph]
    exact hbegin.changes
  · refine ⟨?_, Or.inr ⟨hnone, ?_⟩, hstatus, rfl, rfl⟩
    · rw [← hgraph]
      exact ho.confined.changes
    · rw [← hs.config_eq]
      exact ho.answered

/-- A rule that is there already is refused while the first run for it is still under way. -/
theorem doubled_refused_unfinished :
    let config := { Config.default with maxRounds := 1 }
    let seen := Quad.mk (.iri "g") (.iri "a") (.iri "is") (.iri "seen")
    let opened := RuleEngine.new config .standard ⟨Contents.empty.replay [.gained seen], .empty⟩
    let s := [Event.request (.add doubled), .mutate (.remove seen)].foldl carryOut
      ⟨opened.1, opened.2, []⟩
    let o := (Request.add doubled).carryOut s.engine s.store
    o.engine = s.engine ∧ o.store = s.store ∧
      o.answer = .error (.error (.duplicateRule "doubled")) ∧ s.store.pending 0 = 1 := by
  intro config seen opened s o
  have herror : (Request.add doubled).refusal? s.engine = some (.duplicateRule "doubled") := by
    decide +kernel
  obtain ⟨-, ⟨error, hrefusal, hengine, hstore, hanswer⟩ | ⟨hnone, -⟩, -⟩ :=
    requests_confined config .standard [.gained seen] .empty
      [.request (.add doubled), .mutate (.remove seen)] (.add doubled)
  · obtain rfl : Error.duplicateRule "doubled" = error :=
      Option.some_inj.1 (herror.symm.trans hrefusal)
    exact ⟨hengine, hstore, hanswer, by decide +kernel⟩
  · rw [herror] at hnone
    cases hnone

end Session

end Entail
