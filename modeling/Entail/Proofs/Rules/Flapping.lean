import Entail.Proofs.Rules.Convergence
import Entail.Proofs.Rules.Passes
import Entail.Proofs.Rules.Strata
/-!
# Flapping

What a pass publishes: quads that are lost, none of them twice, and then quads that are gained, none of
them twice either. A quad that is removed while others are still to be reinstated may come to be
supported again before the pass ends; it is then lost and gained.
-/

namespace Entail

namespace RunState

open RuleEngine

variable {s s' s'' last : RunState} {q : Quad} {phase : Phase} {round : Round} {progress : Progress}
  {rounds : List Round}

/-! ## While a pass is under way -/

/-- While a pass is under way quads are only removed, and what comes to be supported is held back. -/
structure Thins (s s' : RunState) : Prop where
  deferred_mono : ∀ q ∈ s.engine.deferred, q ∈ s'.engine.deferred
  raises : ∀ q, 0 < s'.engine.support.total q →
    0 < s.engine.support.total q ∨ q ∈ s'.engine.deferred
  /-- What was removed and is supported again is held back. -/
  losses : ∃ losses : List Quad, s.store.Announces (fun _ => True) (losses.map .lost) s'.store ∧
    ∀ q ∈ losses, 0 < s'.engine.support.total q → q ∈ s'.engine.deferred

namespace Thins

theorem of_unchanged (hdeferred : ∀ q ∈ s.engine.deferred, q ∈ s'.engine.deferred)
    (hraises : ∀ q, 0 < s'.engine.support.total q →
      0 < s.engine.support.total q ∨ q ∈ s'.engine.deferred)
    (hstore : s'.store = s.store) : s.Thins s' :=
  ⟨hdeferred, hraises, [], hstore ▸ .refl _ _, fun _ hq => absurd hq List.not_mem_nil⟩

theorem refl (s : RunState) : s.Thins s :=
  .of_unchanged (fun _ => id) (fun _ => Or.inl) rfl

theorem trans (h : s.Thins s') (h' : s'.Thins s'') : s.Thins s'' where
  deferred_mono q hq := h'.deferred_mono q (h.deferred_mono q hq)
  raises q hq := by
    rcases h'.raises q hq with hq' | hq'
    · exact (h.raises q hq').imp_right (h'.deferred_mono q)
    · exact Or.inr hq'
  losses := by
    obtain ⟨losses, hannounces, hlosses⟩ := h.losses
    obtain ⟨more, hmore, hlosses'⟩ := h'.losses
    refine ⟨losses ++ more, ?_, fun q hq hpos => ?_⟩
    · rw [List.map_append]
      exact hannounces.trans hmore
    · rcases List.mem_append.1 hq with hq | hq
      · rcases h'.raises q hpos with hpos' | hq'
        · exact h'.deferred_mono q (hlosses q hq hpos')
        · exact hq'
      · exact hlosses' q hq hpos

private theorem of_acts {raised lowered : List Quad} (hphase : phase ≠ .outside)
    (h : Acts phase raised lowered s s') : s.Thins s' := by
  induction h with
  | refl => exact .refl s
  | suspect _ _ _ ih => exact ih.trans (.of_unchanged (fun _ => id) (fun _ => Or.inl) rfl)
  | @holdBack s₁ q _ _ _ ih =>
      have hmem : ∀ x, x ∈ s₁.engine.deferred.insert q ↔ q = x ∨ x ∈ s₁.engine.deferred :=
        fun x => OrderedSet.mem_insert
      have hkept : ∀ x ∈ s₁.engine.deferred, x ∈ s₁.engine.deferred.insert q :=
        fun x hx => (hmem x).2 (Or.inr hx)
      exact ih.trans (.of_unchanged hkept (fun _ => Or.inl) rfl)
  | release _ _ hp _ _ => exact absurd hp hphase
  | @retract s₁ q _ _ _ hzero ih =>
      rcases retract_cases s₁ q with ⟨heq, _⟩ | ⟨hhas, heq⟩
      · rw [heq]
        exact ih
      · rw [heq]
        refine ih.trans ⟨fun _ => id, fun _ => Or.inl, [q], .take hhas, fun x hx hpos => ?_⟩
        obtain rfl := List.mem_singleton.1 hx
        have hpos' : 0 < s₁.engine.support.total x := hpos
        rw [hzero] at hpos'
        exact absurd hpos' (Nat.lt_irrefl 0)

private theorem deferred_of_settleLowered (phase : Phase) (s : RunState) (q : Quad) :
    (settleLowered phase s q).engine.deferred = s.engine.deferred := by
  unfold settleLowered
  cases phase with
  | withdrawing =>
      simp only
      split <;> rfl
  | outside | reinstating =>
      simp only
      split
      · split <;> rfl
      · rfl

private theorem deferred_of_settle (hphase : phase ≠ .outside) (h : s.settle phase = .ok s') :
    ∀ q ∈ s.engine.support.raised, q ∈ s'.engine.deferred := by
  have hheld : ∀ s₁ s₂ x, settleRaised phase s₁ x = .ok s₂ →
      s₂.engine.deferred = s₁.engine.deferred.insert x := by
    intro s₁ s₂ x hrun
    cases phase with
    | outside => exact absurd rfl hphase
    | withdrawing | reinstating => exact Except.ok.inj hrun ▸ rfl
  unfold RunState.settle at h
  simp only at h
  obtain ⟨s₁, hraised, hlowered⟩ := Result.bind_eq_ok_iff.1 h
  have h₁ := Result.foldlM_inv
    (fun s' rest => ∀ q ∈ s.engine.support.raised, q ∈ rest ∨ q ∈ s'.engine.deferred)
    (fun s' x rest s'' hinv hrun q hq => ?_) (fun _ => Or.inl) hraised
  · have hkept : ∀ (s' : RunState) (x : Quad) (_ : List Quad),
        s'.engine.deferred = s₁.engine.deferred →
        (settleLowered phase s' x).engine.deferred = s₁.engine.deferred := by
      intro s' x _ hs
      rw [deferred_of_settleLowered, hs]
    have h₂ := Result.foldl_inv (l := s.engine.support.lowered)
      (fun (s' : RunState) _ => s'.engine.deferred = s₁.engine.deferred) hkept rfl
    obtain rfl := Except.ok.inj hlowered
    intro q hq
    rw [h₂]
    exact (h₁ q hq).resolve_left List.not_mem_nil
  · have hmem : q ∈ s'.engine.deferred.insert x ↔ x = q ∨ q ∈ s'.engine.deferred :=
      OrderedSet.mem_insert
    rw [hheld s' s'' x hrun, hmem]
    rcases hinv q hq with hq | hq
    · rcases List.mem_cons.1 hq with rfl | hq
      · exact Or.inr (Or.inl rfl)
      · exact Or.inl hq
    · exact Or.inr (Or.inr hq)

/-- While a pass is under way, what comes to be supported is held back. -/
theorem settle (hphase : phase ≠ .outside) (h : s.settle phase = .ok s') :
    s.taken.Thins s' ∧ ∀ q ∈ s.engine.support.raised, q ∈ s'.engine.deferred :=
  ⟨of_acts hphase (settle_acts h), deferred_of_settle hphase h⟩

theorem perform (hb : s.Balanced) (hphase : round.phase ≠ .outside)
    (h : s.perform round = .ok s') : s.Thins s' := by
  obtain ⟨s₁, hinject, hsettle⟩ := Result.bind_eq_ok_iff.1 h
  obtain ⟨failures, e, hrun, hsame, rfl⟩ := inject_eq_ok hinject
  obtain ⟨_, _, hevolves⟩ := (hb.start round).tracks.of_inject hrun
  obtain ⟨hthins, hraised⟩ := settle hphase hsettle
  refine ⟨fun q hq => hthins.deferred_mono q ?_, fun q hq => ?_, ?_⟩
  · have hdeferred : e.deferred = s.engine.deferred := by
      rw [hsame.deferred_eq, deferred_start]
    have hq' : q ∈ e.deferred := by
      rw [hdeferred]
      exact hq
    exact hq'
  · rcases hthins.raises q hq with hq' | hq'
    · rw [← support_start s round]
      exact (hevolves.raises q hq').imp_right (hraised q)
    · exact Or.inr hq'
  · rw [← store_start s round]
    exact hthins.losses

end Thins

/-! ## The end of a pass -/

private theorem release_publishes (h : s.release q = .ok s') :
    s'.engine = s.engine ∧ (0 < s.engine.support.total q → s'.store.contents.Has q) ∧
      (∀ x, s.store.contents.Has x → s'.store.contents.Has x) ∧
      ∃ gains : List Quad, s.store.Announces (fun _ => True) (gains.map .gained) s'.store ∧
        ∀ x ∈ gains, 0 < s.engine.support.total x := by
  rcases release_cases h with ⟨rfl, hhas⟩ | ⟨hpos, hnot, rfl⟩
  · exact ⟨rfl, hhas, fun _ => id, [], .refl _ _, fun x hx => absurd hx List.not_mem_nil⟩
  · refine ⟨rfl, fun _ => ?_, fun x hx => ?_, [q], .take hnot, fun x hx => ?_⟩
    · rw [Store.has_take]
      exact Or.inr rfl
    · rw [Store.has_take]
      exact Or.inl hx
    · obtain rfl := List.mem_singleton.1 hx
      exact hpos

private theorem retractAll_publishes (e : RuleEngine) (σ : Store) (report : FlushReport)
    (qs : List Quad) :
    ∃ (store : Store) (report' : FlushReport) (losses : List Quad),
      qs.foldl retract ⟨e, σ, report⟩ = ⟨e, store, report'⟩ ∧
      σ.Announces (fun _ => True) (losses.map .lost) store ∧ (∀ q ∈ losses, q ∈ qs) ∧
      ∀ q ∈ qs, ¬ store.contents.Has q := by
  obtain ⟨store, report', hrun, hpublishes, hhas⟩ := retractAll_effects e σ report qs
  obtain ⟨changes, hall, hannounces⟩ := hpublishes.announces
  have hlost : changes ∈ Set.range (List.map Change.lost) := by
    rw [Set.range_list_map]
    intro c hc
    obtain ⟨q, _, rfl⟩ := hall c hc
    exact ⟨q, rfl⟩
  obtain ⟨losses, rfl⟩ := hlost
  refine ⟨store, report', losses, hrun, hannounces, fun q hq => ?_, fun q hq hstored => ?_⟩
  · obtain ⟨x, hx, heq⟩ := hall _ (List.mem_map_of_mem hq)
    obtain rfl := Change.lost.inj heq
    exact hx
  · obtain ⟨_, hnot⟩ := (hhas q).1 hstored
    exact hnot hq

/-- Quads held back are stored in `store` one after the other, up to those of `rest`. -/
private structure Releases (s : RunState) (store : Store) (s' : RunState) (rest : List Quad) :
    Prop where
  support_eq : s'.engine.support = s.engine.support
  stored : ∀ q ∈ s.engine.deferred, 0 < s.engine.support.total q →
    q ∈ rest ∨ s'.store.contents.Has q
  gains : ∃ gains : List Quad, store.Announces (fun _ => True) (gains.map .gained) s'.store ∧
    ∀ q ∈ gains, 0 < s.engine.support.total q

private theorem Releases.step {store : Store} {rest : List Quad}
    (h : Releases s store s' (q :: rest)) (hrelease : s'.release q = .ok s'') :
    Releases s store s'' rest := by
  obtain ⟨gains, hgained, hgains⟩ := h.gains
  obtain ⟨hengine, hhas, hkept, more, hmore, hmore'⟩ := release_publishes hrelease
  rw [h.support_eq] at hhas hmore'
  refine ⟨?_, fun x hx hpos => ?_, gains ++ more, ?_, fun x hx => ?_⟩
  · rw [hengine]
    exact h.support_eq
  · rcases h.stored x hx hpos with hx' | hx'
    · rcases List.mem_cons.1 hx' with rfl | hx'
      · exact Or.inr (hhas hpos)
      · exact Or.inl hx'
    · exact Or.inr (hkept x hx')
  · rw [List.map_append]
    exact hgained.trans hmore
  · rcases List.mem_append.1 hx with hx | hx
    · exact hgains x hx
    · exact hmore' x hx

/-- At the end of a pass the withdrawn quads leave the store, and then those held back enter it that are
supported. -/
theorem finalize_publishes (hzero : ∀ q ∈ s.engine.withdrawn, s.engine.support.total q = 0)
    (h : s.finalize = .ok last) : ∃ losses gains : List Quad,
      s.store.Announces (fun _ => True) (losses.map .lost ++ gains.map .gained) last.store ∧
      (∀ q ∈ losses, s.engine.support.total q = 0) ∧
      (∀ q ∈ gains, 0 < s.engine.support.total q) ∧
      (∀ q ∈ s.engine.deferred, 0 < s.engine.support.total q → last.store.contents.Has q) ∧
      ∀ q ∈ s.engine.withdrawn, ¬ last.store.contents.Has q := by
  unfold finalize at h
  simp only at h
  obtain ⟨store, report, losses, hrun, hlost, hlosses, hgone⟩ :=
    retractAll_publishes { s.engine with withdrawn := ∅, deferred := ∅ } s.store s.report
      s.engine.withdrawn.toList
  rw [hrun] at h
  have hfirst : Releases s store
      ⟨{ s.engine with withdrawn := ∅, deferred := ∅ }, store, report⟩ s.engine.deferred.toList :=
    ⟨rfl, fun q hq _ => Or.inl (OrderedSet.mem_toList_iff.2 hq), [], .refl _ _,
      fun q hq => absurd hq List.not_mem_nil⟩
  have hlast := Result.foldlM_inv (Releases s store) (fun _ _ _ _ => Releases.step) hfirst h
  obtain ⟨gains, hgained, hgains⟩ := hlast.gains
  refine ⟨losses, gains, hlost.trans hgained, fun q hq => ?_, hgains, fun q hq hpos => ?_,
    fun q hq hstored => ?_⟩
  · exact hzero q (OrderedSet.mem_toList_iff.1 (hlosses q hq))
  · exact (hlast.stored q hq hpos).resolve_left List.not_mem_nil
  · -- what is withdrawn has no support, so it is not among what comes
    rw [hgained.contents_eq, Contents.has_replay] at hstored
    have hstored' : Change.stepAll (gains.map .gained) store.contents.Has q := hstored
    rcases (Change.stepAll_gains gains).1 hstored' with hq' | hq'
    · exact hgone q (OrderedSet.mem_toList_iff.2 hq) hq'
    · have hpos := hgains q hq'
      rw [hzero q hq] at hpos
      exact Nat.lt_irrefl 0 hpos

/-! ## A whole pass -/

theorem Passes.thins (h : s.Passes progress rounds last) (hb : s.Balanced) :
    ∃ s₁, s.Thins s₁ ∧ (∀ q ∈ s₁.engine.withdrawn, s₁.engine.support.total q = 0) ∧
      s₁.finalize = .ok last := by
  have hlook : ∀ {s s₁ : RunState} {progress : Progress} {step : Option (Round × Progress)},
      s.nextInPass progress = (s₁, step) → s.Thins s₁ := by
    intro s s₁ progress step hnext
    obtain ⟨suspects, rfl⟩ := nextInPass_keeps hnext
    exact .of_unchanged (fun _ => id) (fun _ => Or.inl) rfl
  induction h with
  | @finish s s₁ last progress hnext hfinalize =>
      exact ⟨s₁, hlook hnext, nextInPass_eq_none hnext, hfinalize⟩
  | @round s s₁ s₂ last progress next round rounds hnext hperform _ ih =>
      have hb₁ := Balanced.isKept.nextInPass hb hnext
      obtain ⟨s₃, hrest, hzero, hfinalize⟩ := ih (hb₁.of_perform hperform)
      have hround : s₁.Thins s₂ := .perform hb₁ (nextInPass_eq_some hnext).2 hperform
      have hdone : s.Thins s₂ := (hlook hnext).trans hround
      exact ⟨s₃, hdone.trans hrest, hzero, hfinalize⟩

/-- What a pass publishes: losses and then gains. What is lost is gained again if it is supported in the
end. -/
theorem Passes.publishes (h : s.Passes progress rounds last) (hb : s.Balanced) :
    ∃ losses gains : List Quad,
      s.store.Announces (fun _ => True) (losses.map .lost ++ gains.map .gained) last.store ∧
      (∀ q ∈ gains, 0 < last.engine.support.total q) ∧
      ∀ q ∈ losses, 0 < last.engine.support.total q → last.store.contents.Has q := by
  obtain ⟨s₁, hthins, hzero, hfinalize⟩ := h.thins hb
  have hsupport : last.engine.support = s₁.engine.support := by
    rw [(finalize_cleared hfinalize).engine_eq]
  obtain ⟨losses, hlost, hlosses⟩ := hthins.losses
  obtain ⟨more, gains, hgained, hmore, hgains, hstored, _⟩ := finalize_publishes hzero hfinalize
  rw [hsupport]
  refine ⟨losses ++ more, gains, ?_, hgains, fun q hq hpos => ?_⟩
  · rw [List.map_append, List.append_assoc]
    exact hlost.trans hgained
  · rcases List.mem_append.1 hq with hq | hq
    · exact hstored q (hlosses q hq hpos) hpos
    · rw [hmore q hq] at hpos
      exact absurd hpos (Nat.lt_irrefl 0)

/-! ## What the networks know -/

/-- Rules and evaluation are the same, and the networks have been told of some changes more. -/
structure Tells (changes : List (Change Quad)) (s s' : RunState) : Prop where
  config_eq : s'.engine.config = s.engine.config
  evaluator_eq : s'.engine.evaluator = s.engine.evaluator
  rule_eq : ∀ id, s'.engine.rule? id = s.engine.rule? id
  tracks : ∀ seen, s.engine.Tracks seen → s'.engine.Tracks fun id held =>
    ∃ before, seen id before ∧ held = Change.stepAll changes before

theorem Tells.trans {changes more : List (Change Quad)} (h : s.Tells changes s')
    (h' : s'.Tells more s'') : s.Tells (changes ++ more) s'' where
  config_eq := by rw [h'.config_eq, h.config_eq]
  evaluator_eq := by rw [h'.evaluator_eq, h.evaluator_eq]
  rule_eq id := by rw [h'.rule_eq id, h.rule_eq id]
  tracks seen hseen := by
    refine (h'.tracks _ (h.tracks seen hseen)).mono fun id held => ?_
    rintro ⟨_, ⟨before, hbefore, rfl⟩, rfl⟩
    exact ⟨before, hbefore, Change.stepAll_append.symm⟩

theorem Tells.relabel (s : RunState) (suspects withdrawn deferred : OrderedSet Quad) {store : Store}
    {report : FlushReport} :
    s.Tells [] ⟨{ s.engine with suspects, withdrawn, deferred }, store, report⟩ where
  config_eq := rfl
  evaluator_eq := rfl
  rule_eq _ := rfl
  tracks seen h := by
    have hseen : s.engine.Tracks fun id held =>
        ∃ before, seen id before ∧ held = Change.stepAll [] before :=
      h.mono fun _ held hheld => ⟨held, hheld, rfl⟩
    exact ⟨hseen.named, hseen.slots, hseen.accounts⟩

theorem perform_tells (hb : s.Balanced) (h : s.perform round = .ok s') :
    s.Tells [round.change] s' where
  config_eq := (perform_spares h).config_eq
  evaluator_eq := (perform_spares h).evaluator_eq
  rule_eq := (perform_tracks hb.tracks h).2
  tracks _ hseen := (perform_tracks hseen h).1

theorem Passes.tells (h : s.Passes progress rounds last) (hb : s.Balanced) :
    s.Tells (rounds.map Round.change) last := by
  have hlook : ∀ {s s₁ : RunState} {progress : Progress} {step : Option (Round × Progress)},
      s.nextInPass progress = (s₁, step) → s.Tells [] s₁ := by
    intro s s₁ progress step hnext
    obtain ⟨suspects, rfl⟩ := nextInPass_keeps hnext
    exact .relabel s suspects s.engine.withdrawn s.engine.deferred
  induction h with
  | @finish s s₁ last progress hnext hfinalize =>
      have htells := hlook hnext
      obtain ⟨e, store, report⟩ := last
      obtain rfl := (finalize_cleared hfinalize).engine_eq
      exact htells.trans (.relabel s₁ s₁.engine.suspects ∅ ∅)
  | @round s s₁ s₂ last progress next round rounds hnext hperform _ ih =>
      have hb₁ := Balanced.isKept.nextInPass hb hnext
      have hround := (hlook hnext).trans (perform_tells hb₁ hperform)
      have hrest := ih (hb₁.of_perform hperform)
      exact hround.trans hrest

private theorem stepAll_rounds (ws rs : List Quad) (before : Quad → Prop) :
    Change.stepAll ((ws.map Round.withdraw ++ rs.map Round.reinstate).map Round.change) before =
      fun x => x ∈ rs ∨ before x ∧ x ∉ ws := by
  have hchanges : (ws.map Round.withdraw ++ rs.map Round.reinstate).map Round.change =
      ws.map Change.lost ++ rs.map Change.gained := by
    rw [List.map_append, List.map_map, List.map_map]
    rfl
  funext x
  rw [hchanges, Change.stepAll_append, Change.stepAll_gains, Change.stepAll_losses, or_comm]

theorem Balanced.reaches_last (h : s.Balanced) (rounds : Nat) :
    ∃ n, s.Reaches n (s.last .idle rounds) := by
  have hkept : IsKept fun s' => s'.Balanced ∧ ∃ n, s.Reaches n s' := by
    refine Balanced.isKept.and ?_ ?_ ?_ ?_
    · rintro s' ⟨n, hreaches⟩
      exact ⟨n, hreaches.drain⟩
    · rintro s' ⟨n, hreaches⟩
      exact ⟨n, hreaches.look⟩
    · rintro s' s'' round progress ⟨n, hreaches⟩ _ hperform
      exact ⟨n + 1, hreaches.perform round hperform⟩
    · rintro s' s'' ⟨n, hreaches⟩ _ hfinalize
      exact ⟨n, hreaches.finish hfinalize⟩
  have hends := hkept.run ⟨h, 0, .refl⟩ s.isDue_idle rounds
  rw [last]
  cases hrun : s.run .idle rounds with
  | ok s' =>
      rw [hrun] at hends
      exact hends.2
  | error stopped =>
      rw [hrun] at hends
      exact hends.1.2

end RunState

/-! ## Sessions -/

open RuleEngine RunState

namespace Session

/-- Whatever the rules and the requests, and whatever others write: from any state that the run of a
request reaches, a pass withdraws the quads of `ws`, reinstates those of `rs`, and publishes losses and
then gains, of either no quad twice.

* A quad that is lost is gained again exactly if it is supported when the pass ends. So no quad is
  published twice exactly if no quad that is lost is supported in the end.
* What is gained is concluded from a match over what the networks knew before the pass, without what is
  left withdrawn and with everything that was reinstated. -/
theorem pass_publishes (config : Config) (ev : Evaluator) (stored : List (Change Quad))
    (feed : ChangeFeed) (events : List Event) (request : Request) {s₀ s : RunState} {n : Nat} :
    let opened := RuleEngine.new config ev ⟨Contents.empty.replay stored, feed⟩
    let session := events.foldl carryOut ⟨opened.1, opened.2, []⟩
    Turn.opening ⟨session.engine, session.store, request⟩ = some s₀ → s₀.Reaches n s →
    ∃ ws rs last, ∃ losses gains : List Quad, s.Sweeps ws rs last ∧
      s.store.Announces (fun _ => True) (losses.map .lost ++ gains.map .gained) last.store ∧
      losses.Nodup ∧ gains.Nodup ∧
      (∀ q ∈ losses, q ∈ gains ↔ 0 < last.engine.support.total q) ∧
      ((losses ++ gains).Nodup ↔ ∀ q ∈ losses, last.engine.support.total q = 0) ∧
      ∀ q ∈ gains, ∃ r t before, s.engine.Runs r ∧ s.engine.FiresOver r before ∧
        r.condition.IsOutput s.engine.evaluator (fun x => x ∈ rs ∨ before x ∧ x ∉ ws) t ∧
        r.Concludes s.engine.evaluator s.engine.graph t q := by
  intro opened session hopening hreaches
  have hsession : session.IsBalanced := (isBalanced_new config ev stored feed).run events
  have hs := hreaches.balanced (Turn.balanced_of_opening hsession.balanced hopening)
  obtain ⟨ws, rs, last, hsweeps⟩ := hs.exists_sweeps
  obtain ⟨losses, gains, hannounces, hsupported, hrestored⟩ := hsweeps.passes.publishes hs
  obtain ⟨hlosses, hgains⟩ := hannounces.effective.nodup_of_losses_gains
  have hiff : ∀ q ∈ losses, q ∈ gains ↔ 0 < last.engine.support.total q := by
    refine fun q hq => ⟨hsupported q, fun hpos => ?_⟩
    have hhas := hrestored q hq hpos
    rw [hannounces.contents_eq] at hhas
    obtain ⟨x, hx, heq⟩ := List.mem_map.1 (Contents.gained_of_has_replay hq hhas)
    obtain rfl := Change.gained.inj heq
    exact hx
  refine ⟨ws, rs, last, losses, gains, hsweeps, hannounces, hlosses, hgains, hiff, ?_,
    fun q hq => ?_⟩
  · rw [List.nodup_append', and_iff_right hlosses, and_iff_right hgains]
    refine forall₂_congr fun q hq => ?_
    have hzero : ¬ 0 < last.engine.support.total q ↔ last.engine.support.total q = 0 := by omega
    rw [hiff q hq]
    exact hzero
  · have htells := hsweeps.passes.tells hs
    have htracks := htells.tracks _ hs.tracks.firesOver
    obtain ⟨r, t, hfires, hconcludes⟩ := htracks.total_pos_iff.1 (hsupported q hq)
    have hruns := htracks.runs_of_fires hfires
    obtain ⟨_, ⟨before, hbefore, rfl⟩, hover⟩ := htracks.fires_iff hruns
    have hruns' : s.engine.Runs r := by
      rw [Runs, ← htells.rule_eq r.id]
      exact hruns
    have hout := (hover t).1 hfires
    rw [stepAll_rounds, htells.evaluator_eq] at hout
    rw [graph, htells.config_eq, htells.evaluator_eq] at hconcludes
    exact ⟨r, t, before, hruns', hbefore r hruns' rfl, hout, hconcludes⟩

/-- Something is a B for being a Z, and would be for another value if it were not an M. It loses one of
two values it is an M for and one of two it is a Z for. -/
def flappingEvents : List Event :=
  [.request (.add (classify "m1" "p" "1" none "M")),
    .request (.add (classify "m2" "p" "2" none "M")),
    .request (.add (classify "z1" "p" "5" none "Z")),
    .request (.add (classify "z2" "p" "6" none "Z")),
    .request (.add (classify "b1" "is" "Z" none "B")),
    .request (.add (classify "b2" "p" "4" (some "M") "B")),
    .mutate (.apply ⟨[hasValue "1", hasValue "2", hasValue "4", hasValue "5", hasValue "6"], []⟩),
    .request .flush,
    .mutate (.apply ⟨[], [hasValue "1", hasValue "5"]⟩)]

/-- Somebody listens. -/
def flappingSession : Session :=
  let opened := RuleEngine.new .default .standard
    ⟨Contents.empty.replay [], ChangeFeed.empty.subscribe.2⟩
  flappingEvents.foldl carryOut ⟨opened.1, opened.2, []⟩

private theorem isBalanced_flappingSession : flappingSession.IsBalanced :=
  (isBalanced_new .default .standard [] ChangeFeed.empty.subscribe.2).run flappingEvents

/-- The flush has propagated both losses, and the pass begins. -/
def beforeFlapping : RunState :=
  (flappingSession.engine.begin flappingSession.store).last .idle 2

/-- While the M is withdrawn, its being a B is supported for the other value, and reinstated for that
before the M and the Z are. When the M comes back this support is gone, and the B is removed; when the Z
comes back it is supported again, and stored. -/
theorem pass_flaps :
    let s := beforeFlapping
    let b : Quad := ⟨.iri Config.default.inferenceGraph, .iri "x", .iri "is", .iri "B"⟩
    IsStratified .standard (.iri Config.default.inferenceGraph) s.engine.activeRules byNegation ∧
      (∃ n, (flappingSession.engine.begin flappingSession.store).Reaches n s) ∧
      s.engine.queue s.store = [] ∧ s.engine.suspects ≠ ∅ ∧ s.engine.isRederiving = false ∧
      s.store.contents.Has b ∧
      ∃ rounds last, s.Passes .withdrawing rounds last ∧ last.store.contents.Has b ∧
        last.store.feed.waiting 0 = s.store.feed.waiting 0 ++ [.lost b, .gained b] := by
  intro s b
  obtain ⟨habove, hqueue, hsuspects, hidle, hhas, hpass⟩ :
      s.engine.activeRules.all (Rule.isAbove (.iri Config.default.inferenceGraph) byNegation
        s.engine.activeRules) = true ∧
      s.engine.queue s.store = [] ∧ s.engine.suspects ≠ ∅ ∧ s.engine.isRederiving = false ∧
      s.store.contents.contains b = true ∧
      (s.pass .withdrawing 10).any (fun result => result.2.store.contents.contains b &&
        (result.2.store.feed.waiting 0 == s.store.feed.waiting 0 ++ [.lost b, .gained b])) =
        true := by
    decide +kernel
  have hreaches := isBalanced_flappingSession.balanced.reaches_last 2
  obtain ⟨⟨rounds, last⟩, hrun, hlast⟩ := (Option.any_eq_true _ _).1 hpass
  rw [Bool.and_eq_true, beq_iff_eq] at hlast
  exact ⟨isStratified_of_isAbove .standard habove, hreaches, hqueue, hsuspects,
     hidle, hhas, rounds, last, passes_of_pass hrun, hlast⟩

/-- The pass in which this happens. -/
theorem pass_publishes_of_classify :
    let s := beforeFlapping
    (∃ n, (flappingSession.engine.begin flappingSession.store).Reaches n s) ∧
      ∃ ws rs last, ∃ losses gains : List Quad, s.Sweeps ws rs last ∧
        s.store.Announces (fun _ => True) (losses.map .lost ++ gains.map .gained) last.store ∧
        losses.Nodup ∧ gains.Nodup ∧
        (∀ q ∈ losses, q ∈ gains ↔ 0 < last.engine.support.total q) ∧
        ((losses ++ gains).Nodup ↔ ∀ q ∈ losses, last.engine.support.total q = 0) ∧
        ∀ q ∈ gains, ∃ r t before, s.engine.Runs r ∧ s.engine.FiresOver r before ∧
          r.condition.IsOutput s.engine.evaluator (fun x => x ∈ rs ∨ before x ∧ x ∉ ws) t ∧
          r.Concludes s.engine.evaluator s.engine.graph t q := by
  intro s
  obtain ⟨n, hreaches⟩ := isBalanced_flappingSession.balanced.reaches_last 2
  exact ⟨⟨n, hreaches⟩, pass_publishes .default .standard [] ChangeFeed.empty.subscribe.2
    flappingEvents .flush rfl hreaches⟩

end Session

end Entail
