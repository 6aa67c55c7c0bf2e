import Entail.Proofs.Rules.Openings
import Entail.Rules.Explain
import Mathlib.Data.List.Pairwise
/-!
# Accounting

The matches that an engine recorded, its support counts and its explanations say the same, whatever
the engine was asked and whatever others did to the store. Hence no count can underflow, and no match
can come twice.
-/

namespace Entail

/-! ## Explanations -/

namespace RuleSlot

variable {slot : RuleSlot} {q : Quad} {d : Derivation}

theorem mem_derivations_iff : d ∈ slot.derivations q ↔ ∃ t qs, slot.firings.get? t = some qs ∧
    q ∈ qs ∧ d = ⟨slot.rule.id, t.bindings, t.facts⟩ := by
  simp only [derivations, List.mem_map, List.mem_filter, List.contains_iff_mem, Prod.exists]
  constructor
  · rintro ⟨t, qs, ⟨hmem, hq⟩, rfl⟩
    exact ⟨t, qs, OrderedMap.mem_toList_iff.1 hmem, hq, rfl⟩
  · rintro ⟨t, qs, hget, hq, rfl⟩
    exact ⟨t, qs, ⟨OrderedMap.mem_toList_iff.2 hget, hq⟩, rfl⟩

theorem nodup_derivations (slot : RuleSlot) (q : Quad) : (slot.derivations q).Nodup := by
  refine List.Nodup.map_on ?_ (slot.firings.nodup_toList.filter _)
  rintro ⟨t, qs⟩ ht ⟨t', qs'⟩ ht' heq
  have hget := OrderedMap.mem_toList_iff.1 (List.mem_of_mem_filter ht)
  have hget' := OrderedMap.mem_toList_iff.1 (List.mem_of_mem_filter ht')
  obtain ⟨bindings, facts⟩ := t
  obtain ⟨bindings', facts'⟩ := t'
  obtain ⟨-, rfl, rfl⟩ := Derivation.mk.inj heq
  rw [Option.some_inj.1 (hget.symm.trans hget')]

end RuleSlot

namespace RuleEngine

variable {e : RuleEngine} {q : Quad} {d : Derivation}

/-- The match `t` of the rule `id` is recorded with the conclusions `qs`. -/
def Records (e : RuleEngine) (id : String) (t : Token) (qs : List Quad) : Prop :=
  ∃ slot, e.slots.get? id = some slot ∧ slot.firings.get? t = some qs

theorem mem_explain_iff (hnamed : ∀ id slot, e.slots.get? id = some slot → slot.rule.id = id) :
    d ∈ e.explain q ↔ ∃ qs, e.Records d.rule ⟨d.bindings, d.premises⟩ qs ∧ q ∈ qs := by
  simp only [explain, mem_ascending, List.mem_flatMap, OrderedMap.values, List.mem_map,
    Prod.exists, exists_eq_right, RuleSlot.mem_derivations_iff]
  constructor
  · rintro ⟨slot, ⟨id, hmem⟩, t, qs, hget, hq, rfl⟩
    have hslot := OrderedMap.mem_toList_iff.1 hmem
    exact ⟨qs, ⟨slot, hnamed id slot hslot ▸ hslot, hget⟩, hq⟩
  · rintro ⟨qs, ⟨slot, hslot, hget⟩, hq⟩
    refine ⟨slot, ⟨d.rule, OrderedMap.mem_toList_iff.2 hslot⟩, _, qs, hget, hq, ?_⟩
    rw [hnamed _ slot hslot]

theorem nodup_explain (hnamed : ∀ id slot, e.slots.get? id = some slot → slot.rule.id = id)
    (q : Quad) : (e.explain q).Nodup := by
  refine (ascending_perm _).nodup_iff.2 (List.nodup_flatMap.2 ⟨fun slot _ =>
    slot.nodup_derivations q, ?_⟩)
  rw [OrderedMap.values, List.pairwise_map]
  refine e.slots.increasing.imp_of_mem fun {a b} ha hb hlt d hd hd' => ?_
  obtain ⟨_, _, _, _, rfl⟩ := RuleSlot.mem_derivations_iff.1 hd
  obtain ⟨_, _, _, _, heq⟩ := RuleSlot.mem_derivations_iff.1 hd'
  -- the names of the rules tell the slots apart
  have hname : a.1 = b.1 := by
    rw [← hnamed a.1 a.2 (OrderedMap.mem_toList_iff.1 ha),
      ← hnamed b.1 b.2 (OrderedMap.mem_toList_iff.1 hb)]
    exact congrArg Derivation.rule heq
  rw [Std.compare_eq_iff_eq.2 hname] at hlt
  cases hlt

/-! ## What agrees -/

/-- The matches, the counts and the explanations of an engine agree. -/
structure Reconciles (e : RuleEngine) : Prop where
  named : ∀ id slot, e.slots.get? id = some slot → slot.rule.id = id
  active_iff : ∀ id slot, e.slots.get? id = some slot →
    (slot.rule.active = true ↔ slot.network.isSome = true)
  /-- The recorded matches are what is out of the network of a rule, with what each concludes. -/
  records_iff : ∀ id t qs, e.Records id t qs ↔ ∃ slot n, e.slots.get? id = some slot ∧
    slot.network = some n ∧ t ∈ n.outputs ∧ qs = slot.drawn e.evaluator e.graph t
  /-- A rule supports a quad as often as the quad occurs in the conclusions of its matches. -/
  fromRule_eq : ∀ id q, e.support.fromRule id q = slotCount e.slots id q
  total_eq : ∀ q, e.support.total q = e.slots.sumOver fun id _ => e.support.fromRule id q
  byRule_pos : ∀ k n, e.support.byRule.get? k = some n → 0 < n
  totals_pos : ∀ q n, e.support.totals.get? q = some n → 0 < n
  explain_nodup : ∀ q, (e.explain q).Nodup
  mem_explain : ∀ q d, d ∈ e.explain q ↔
    ∃ qs, e.Records d.rule ⟨d.bindings, d.premises⟩ qs ∧ q ∈ qs

end RuleEngine

namespace RunState.Balanced

variable {s : RunState}

private theorem records_iff (h : s.Balanced) (id : String) (t : Token) (qs : List Quad) :
    s.engine.Records id t qs ↔ ∃ slot n, s.engine.slots.get? id = some slot ∧
      slot.network = some n ∧ t ∈ n.outputs ∧
      qs = slot.drawn s.engine.evaluator s.engine.graph t := by
  have hfires : ∀ slot n, s.engine.slots.get? id = some slot → slot.network = some n →
      (slot.firings.get? t = some qs ↔ t ∈ n.outputs ∧
        qs = slot.drawn s.engine.evaluator s.engine.graph t) := by
    intro slot n hslot hn
    obtain ⟨hcondition, held, _, htracks, hfires⟩ := (h.tracks.slots id slot hslot).running n hn
    rw [hfires t qs, htracks.outputs t, hcondition]
  constructor
  · rintro ⟨slot, hslot, hget⟩
    cases hn : slot.network with
    | none =>
        rw [(h.tracks.slots id slot hslot).idle hn] at hget
        cases hget
    | some n => exact ⟨slot, n, hslot, hn, (hfires slot n hslot hn).1 hget⟩
  · rintro ⟨slot, n, hslot, hn, hout⟩
    exact ⟨slot, hslot, (hfires slot n hslot hn).2 hout⟩

theorem reconciles (h : s.Balanced) : s.engine.Reconciles where
  named := h.tracks.named
  active_iff id slot hslot := (h.tracks.slots id slot hslot).active_iff
  records_iff := h.records_iff
  fromRule_eq := h.tracks.accounts.fromRule_eq
  total_eq q := by
    rw [h.tracks.accounts.total_eq, slotTotal]
    refine OrderedMap.sumOver_congr fun id slot hslot => ?_
    rw [h.tracks.accounts.fromRule_eq, slotCount, hslot]
  byRule_pos := fun (id, q) _ hn =>
    Support.noted_pos ((h.tracks.accounts.byRule_eq id q).symm.trans hn)
  totals_pos q _ hn := Support.noted_pos ((h.tracks.accounts.totals_eq q).symm.trans hn)
  explain_nodup := RuleEngine.nodup_explain h.tracks.named
  mem_explain _ _ := RuleEngine.mem_explain_iff h.tracks.named

end RunState.Balanced

/-! ## Sessions -/

namespace Session

/-- The engine is balanced, and no request was ever answered with a fault. -/
structure IsBalanced (s : Session) : Prop where
  balanced : (s.engine.begin s.store).Balanced
  answered : ∀ t ∈ s.turns, ∀ f, t.outcome.answer ≠ .error (.fault f)

theorem isBalanced_new (config : Config) (ev : Evaluator) (stored : List (Change Quad))
    (feed : ChangeFeed) :
    IsBalanced ⟨(RuleEngine.new config ev ⟨Contents.empty.replay stored, feed⟩).1,
      (RuleEngine.new config ev ⟨Contents.empty.replay stored, feed⟩).2, []⟩ where
  balanced := ⟨Contents.isIndexed_empty.replay stored, RuleEngine.tracks_of_empty rfl rfl⟩
  answered := nofun

theorem IsBalanced.carryOut {s : Session} (h : s.IsBalanced) (event : Event) :
    (s.carryOut event).IsBalanced := by
  cases event with
  | mutate m =>
      obtain ⟨changes, _, hannounces⟩ := m.announces s.store
      refine ⟨⟨?_, h.balanced.tracks⟩, h.answered⟩
      have hcontents : (m.carryOut s.store).contents = s.store.contents.replay changes :=
        hannounces.contents_eq
      exact hcontents ▸ h.balanced.indexed.replay changes
  | request request =>
      have hsound := Outcome.IsSound.carryOut h.balanced request
      refine ⟨hsound.balanced, fun t ht => ?_⟩
      rcases List.mem_cons.1 ht with rfl | ht
      · exact hsound.answered
      · exact h.answered t ht

theorem IsBalanced.run {s : Session} (h : s.IsBalanced) (events : List Event) :
    (events.foldl Session.carryOut s).IsBalanced :=
  Result.foldl_inv (fun (s : Session) _ => s.IsBalanced) (fun _ event _ hs => hs.carryOut event) h

/-- Whatever the rules, the requests and the changes of the store, and wherever runs were cut short:
what the engine recorded, counted and explains agrees, and nothing it was asked ended in a fault. -/
theorem support_accounting (config : Config) (ev : Evaluator) (stored : List (Change Quad))
    (feed : ChangeFeed) (events : List Event) :
    let opened := RuleEngine.new config ev ⟨Contents.empty.replay stored, feed⟩
    let s := events.foldl carryOut ⟨opened.1, opened.2, []⟩
    s.engine.Reconciles ∧ ∀ t ∈ s.turns, ∀ f, t.outcome.answer ≠ .error (.fault f) := by
  intro opened s
  have hs : s.IsBalanced := Result.foldl_inv (fun (s : Session) _ => s.IsBalanced)
    (fun _ event _ h => h.carryOut event) (isBalanced_new config ev stored feed)
  exact ⟨hs.balanced.reconciles, hs.answered⟩

/-- A rule that concludes a quad twice. -/
def doubled : Rule where
  id := "doubled"
  condition := ⟨[⟨.any, .variable ⟨"x"⟩, .node (.iri "is"), .node (.iri "seen")⟩], [], none⟩
  guard := none
  conclusions := [⟨.variable ⟨"x"⟩, .node (.iri "is"), .node (.iri "known")⟩,
    ⟨.variable ⟨"x"⟩, .node (.iri "is"), .node (.iri "known")⟩]
  active := true

/-- The run gets no round, and others remove what it stored: the one match counts twice all the
same. -/
theorem accounting_of_doubled :
    let config := { Config.default with maxRounds := 0 }
    let seen := Quad.mk (.iri "g") (.iri "a") (.iri "is") (.iri "seen")
    let known := Quad.mk (.iri config.inferenceGraph) (.iri "a") (.iri "is") (.iri "known")
    let opened := RuleEngine.new config .standard ⟨Contents.empty.replay [.gained seen], .empty⟩
    let s := [.request (.add doubled), .mutate (.remove known)].foldl carryOut
      ⟨opened.1, opened.2, []⟩
    s.engine.Reconciles ∧ (∀ t ∈ s.turns, ∀ f, t.outcome.answer ≠ .error (.fault f)) ∧
      s.turns.length = 1 ∧ s.engine.support.total known = 2 ∧
      (s.engine.explain known).length = 1 ∧ ¬ s.store.contains known := by
  intro config seen known opened s
  obtain ⟨hreconciles, hanswered⟩ := support_accounting config .standard [.gained seen] .empty
    [.request (.add doubled), .mutate (.remove known)]
  exact ⟨hreconciles, hanswered, by decide +kernel⟩

end Session

end Entail
