import Entail.Proofs.Network.Binding
import Entail.Proofs.Rules.Steps
/-!
# Failures

A failure is reported for a match that came out of the network of its rule, or for a group there whose
row cannot be computed. So the rule fails over the quads that its network was told of.
-/

namespace Entail

variable {ev : Evaluator} {graph : Node} {held : Quad → Prop} {c : Change Quad}
  {failures : List ConclusionFailure}

/-- The rule fails so for something that comes out of its condition over `held`, or for a group of
matches that has no row. -/
def Rule.FailsOver (r : Rule) (ev : Evaluator) (graph : Node) (held : Quad → Prop)
    (f : ConclusionFailure) : Prop :=
  f.rule = r.id ∧
    ((∃ t, r.condition.IsOutput ev held t ∧ f.bindings = t.bindings ∧
        f.diagnostic ∈ (r.instantiate ev graph t.bindings).failures) ∨
      ∃ a key members error, r.condition.aggregation = some a ∧
        a.IsGroup (r.condition.IsMatch held) key members ∧ a.row ev key members = .error error ∧
        f.bindings = a.groupBindings key ∧ f.diagnostic = ⟨error, none⟩)

/-! ## What a rule depends on -/

/-- With more quads of the graph held, more comes out: none of them is denied, and none is read for the
members of a group. -/
def Condition.IsMonotoneIn (c : Condition) (graph : Node) : Prop :=
  (∀ q, c.Denies q → q.graph ≠ graph) ∧ (c.aggregation ≠ none → ∀ q, c.Reads q → q.graph ≠ graph)

theorem Rule.IsPositive.isMonotoneIn {r : Rule} (h : r.IsPositive) (g : Node) :
    r.condition.IsMonotoneIn g := by
  refine ⟨fun q hq => ?_, fun hsome => absurd h.2 hsome⟩
  obtain ⟨conjunction, hconjunction, _⟩ := hq
  rw [h.1] at hconjunction
  exact absurd hconjunction List.not_mem_nil

theorem Rule.FailsOver.mono {r : Rule} {f : ConclusionFailure} {held' : Quad → Prop} {g : Node}
    (h : r.FailsOver ev graph held f) (hmono : r.condition.IsMonotoneIn g)
    (hsub : ∀ q, held q → held' q) (hother : ∀ q, q.graph ≠ g → (held q ↔ held' q)) :
    r.FailsOver ev graph held' f := by
  have hdenied : ∀ q, r.condition.Denies q → (held q ↔ held' q) :=
    fun q hq => hother q (hmono.1 q hq)
  refine ⟨h.1, ?_⟩
  cases ha : r.condition.aggregation with
  | none =>
      obtain ⟨t, hout, hf⟩ | ⟨a, _, _, _, hsome, _⟩ := h.2
      · rw [Condition.isOutput_of_none ha] at hout
        refine Or.inl ⟨t, (Condition.isOutput_of_none ha).2 ⟨fun q hq => hsub q (hout.1 q hq), ?_⟩,
          hf⟩
        exact hout.2.congr fun q hq => (hdenied q hq).2
      · rw [ha] at hsome
        cases hsome
  | some a =>
      have hread : ∀ q, r.condition.Reads q → (held q ↔ held' q) :=
        fun q hq => hother q (hmono.2 (by rw [ha]; exact nofun) q hq)
      rw [← ha, ← Condition.isMatch_congr hread hdenied]
      exact h.2.imp_left fun ⟨t, hout, hf⟩ =>
        ⟨t, (Condition.isOutput_congr hread hdenied).1 hout, hf⟩

/-! ## One slot -/

namespace RuleSlot

variable {slot : RuleSlot} {support : Support} {s' : RuleSlot × Support}

private theorem failure_of_receive {change : Change Token}
    (h : receive ev graph (slot, support) change = .ok (failures, s')) :
    s'.1.rule = slot.rule ∧ ∀ f ∈ failures, ∃ t, change = .gained t ∧ f.rule = slot.rule.id ∧
      f.bindings = t.bindings ∧
      f.diagnostic ∈ (slot.rule.instantiate ev graph t.bindings).failures := by
  cases change with
  | gained t =>
      simp only [receive] at h
      split at h
      · cases h
      · obtain ⟨rfl, rfl⟩ := Prod.mk.inj (Except.ok.inj h)
        refine ⟨rfl, fun f hf => ?_⟩
        obtain ⟨d, hd, rfl⟩ := List.mem_map.1 hf
        exact ⟨t, rfl, rfl, rfl, hd⟩
  | lost t =>
      simp only [receive] at h
      split at h
      · cases h
      · obtain ⟨support', _, h⟩ := Result.bind_eq_ok_iff.1 h
        obtain ⟨rfl, rfl⟩ := Prod.mk.inj (Except.ok.inj h)
        exact ⟨rfl, fun f hf => absurd hf List.not_mem_nil⟩

private theorem failure_of_receiveAll {changes : List (Change Token)}
    (h : runStage (receive ev graph) (slot, support) changes = .ok (failures, s')) :
    ∀ f ∈ failures, ∃ t, .gained t ∈ changes ∧ f.rule = slot.rule.id ∧ f.bindings = t.bindings ∧
      f.diagnostic ∈ (slot.rule.instantiate ev graph t.bindings).failures := by
  induction changes generalizing slot support failures with
  | nil =>
      obtain ⟨rfl, _⟩ := Prod.mk.inj (Except.ok.inj h)
      exact fun f hf => absurd hf List.not_mem_nil
  | cons change rest ih =>
      rw [runStage, Result.bind_eq_ok_iff] at h
      obtain ⟨⟨first, slot₁, support₁⟩, hfirst, h⟩ := h
      obtain ⟨⟨others, s₂⟩, hrest, h⟩ := Result.bind_eq_ok_iff.1 h
      obtain ⟨rfl, rfl⟩ := Prod.mk.inj (Except.ok.inj h)
      obtain ⟨hrule, hfailures⟩ := failure_of_receive hfirst
      intro f hf
      rcases List.mem_append.1 hf with hf | hf
      · obtain ⟨t, rfl, hf⟩ := hfailures f hf
        exact ⟨t, List.mem_cons_self, hf⟩
      · obtain ⟨t, ht, hf⟩ := ih hrest f hf
        have hrule' : slot₁.rule = slot.rule := hrule
        rw [hrule'] at hf
        exact ⟨t, List.mem_cons_of_mem _ ht, hf⟩

theorem failsOver_of_absorb (slot : RuleSlot) {n : Network} {p : Propagation}
    (htracks : n.Tracks ev held)
    (hcondition : n.condition = slot.rule.condition)
    (hgained : ∀ t, .gained t ∈ p.changes → slot.rule.condition.IsOutput ev held t)
    (hlacks : ∀ failure ∈ p.failures, n.LacksRow ev failure)
    (h : slot.absorb ev graph support p = .ok (failures, s')) :
    ∀ f ∈ failures, slot.rule.FailsOver ev graph held f := by
  obtain ⟨⟨drawn, s₁⟩, hrun, h⟩ := Result.bind_eq_ok_iff.1 h
  obtain ⟨rfl, _⟩ := Prod.mk.inj (Except.ok.inj h)
  intro f hf
  rcases List.mem_append.1 hf with hf | hf
  · obtain ⟨failure, hfailure, rfl⟩ := List.mem_map.1 hf
    obtain ⟨g, key, hg, hne, hbindings, hrow⟩ := hlacks failure hfailure
    obtain ⟨haggregation, hgroup⟩ := htracks.isGroup hg hne
    rw [hcondition] at haggregation hgroup
    exact ⟨rfl, Or.inr ⟨g.aggregation, key, _, failure.2, haggregation, hgroup, hrow, hbindings,
      rfl⟩⟩
  · obtain ⟨t, ht, hrule, hf⟩ := failure_of_receiveAll hrun f hf
    exact ⟨hrule, Or.inl ⟨t, hgained t ht, hf⟩⟩

theorem failsOver_of_wake {r : Rule} {n n' : Network} {p : Propagation} {contents : Contents}
    (hn : Network.compile r.condition = .ok n) (hindexed : contents.IsIndexed)
    (hprime : n.prime ev contents = .ok (p, n'))
    (h : RuleSlot.absorb ev graph ⟨r, some n', ∅⟩ support p = .ok (failures, s')) :
    ∀ f ∈ failures, r.FailsOver ev graph contents.Has f := by
  obtain ⟨_, _, hprime', hcondition, htracks, halters⟩ := Network.prime_spec ev hn hindexed
  obtain ⟨rfl, rfl⟩ := Result.pair_eq_of_eq_ok hprime' hprime
  exact failsOver_of_absorb ⟨r, some _, ∅⟩ htracks hcondition
    (fun t ht => ((halters.gained_iff t).1 ht).1) (fun _ => Network.lacksRow_of_prime hprime) h

end RuleSlot

/-! ## All slots -/

namespace RuleEngine

variable {e e' : RuleEngine} {id : String} {seen : String → (Quad → Prop) → Prop}

private theorem get?_of_injectInto (h : RunState.injectInto c e id = .ok (failures, e'))
    {other : String} (hne : other ≠ id) : e'.slots.get? other = e.slots.get? other := by
  unfold RunState.injectInto at h
  split at h
  · obtain ⟨_, rfl⟩ := Prod.mk.inj (Except.ok.inj h)
    rfl
  · split at h
    · obtain ⟨_, rfl⟩ := Prod.mk.inj (Except.ok.inj h)
      rfl
    · obtain ⟨⟨p, n⟩, _, h⟩ := Result.bind_eq_ok_iff.1 h
      obtain ⟨⟨_, slot, support⟩, _, h⟩ := Result.bind_eq_ok_iff.1 h
      obtain ⟨_, rfl⟩ := Prod.mk.inj (Except.ok.inj h)
      exact (OrderedMap.get?_insert _ _ _ _).trans (if_neg (Ne.symm hne))

private theorem failsOver_of_injectInto
    (hslots : ∀ slot, e.slots.get? id = some slot →
      slot.Tracks e.evaluator e.graph (seen id))
    (h : RunState.injectInto c e id = .ok (failures, e')) :
    ∀ f ∈ failures, ∃ slot held, e.slots.get? id = some slot ∧ slot.rule.active = true ∧
      seen id held ∧ slot.rule.FailsOver e.evaluator e.graph (c.step held) f := by
  unfold RunState.injectInto at h
  split at h
  · obtain ⟨rfl, _⟩ := Prod.mk.inj (Except.ok.inj h)
    exact fun f hf => absurd hf List.not_mem_nil
  · rename_i slot hget
    split at h
    · obtain ⟨rfl, _⟩ := Prod.mk.inj (Except.ok.inj h)
      exact fun f hf => absurd hf List.not_mem_nil
    · rename_i n hn
      obtain ⟨⟨p, n'⟩, hupdate, h⟩ := Result.bind_eq_ok_iff.1 h
      obtain ⟨⟨_, slot', support⟩, habsorb, h⟩ := Result.bind_eq_ok_iff.1 h
      obtain ⟨rfl, _⟩ := Prod.mk.inj (Except.ok.inj h)
      have hslot := hslots slot hget
      obtain ⟨hcondition, held, hseen, htracks, _⟩ := hslot.running n hn
      obtain ⟨p', n'', hupdate', hcondition', htracks', halters⟩ := htracks.update_spec c
      obtain ⟨rfl, rfl⟩ := Result.pair_eq_of_eq_ok hupdate' hupdate
      rw [hcondition] at halters
      have hactive : slot.rule.active = true := hslot.active_iff.2 (by rw [hn]; rfl)
      refine fun f hf => ⟨slot, held, hget, hactive, hseen, ?_⟩
      exact RuleSlot.failsOver_of_absorb { slot with network := some n'' } htracks'
        (hcondition'.trans hcondition) (fun t ht => ((halters.gained_iff t).1 ht).1)
        (fun _ => Network.lacksRow_of_update hupdate) habsorb f hf

private theorem failsOver_of_runStage {ids : List String} (hnodup : ids.Nodup)
    (hslots : ∀ id ∈ ids, ∀ slot, e.slots.get? id = some slot →
      slot.Tracks e.evaluator e.graph (seen id))
    (h : runStage (RunState.injectInto c) e ids = .ok (failures, e')) :
    ∀ f ∈ failures, ∃ id ∈ ids, ∃ slot held, e.slots.get? id = some slot ∧
      slot.rule.active = true ∧ seen id held ∧
      slot.rule.FailsOver e.evaluator e.graph (c.step held) f := by
  induction ids generalizing e failures with
  | nil =>
      obtain ⟨rfl, _⟩ := Prod.mk.inj (Except.ok.inj h)
      exact fun f hf => absurd hf List.not_mem_nil
  | cons id rest ih =>
      obtain ⟨hnot, hrest⟩ := List.nodup_cons.1 hnodup
      rw [runStage, Result.bind_eq_ok_iff] at h
      obtain ⟨⟨first, e₁⟩, hfirst, h⟩ := h
      obtain ⟨⟨others, e₂⟩, hothers, h⟩ := Result.bind_eq_ok_iff.1 h
      obtain ⟨rfl, rfl⟩ := Prod.mk.inj (Except.ok.inj h)
      have hsame := RunState.sameBut_of_injectInto hfirst
      have hkept : ∀ other ∈ rest, e₁.slots.get? other = e.slots.get? other :=
        fun other ho => get?_of_injectInto hfirst fun heq => hnot (heq ▸ ho)
      intro f hf
      rcases List.mem_append.1 hf with hf | hf
      · exact ⟨id, List.mem_cons_self,
          failsOver_of_injectInto (hslots id List.mem_cons_self) hfirst f hf⟩
      · have hslots₁ : ∀ other ∈ rest, ∀ slot, e₁.slots.get? other = some slot →
            slot.Tracks e₁.evaluator e₁.graph (seen other) := by
          intro other ho slot hget
          rw [hsame.evaluator_eq, hsame.graph_eq]
          exact hslots other (List.mem_cons_of_mem _ ho) slot (hkept other ho ▸ hget)
        obtain ⟨other, ho, slot, held, hget, hactive, hseen, hfails⟩ :=
          ih hrest hslots₁ hothers f hf
        rw [hsame.evaluator_eq, hsame.graph_eq] at hfails
        exact ⟨other, List.mem_cons_of_mem _ ho, slot, held, hkept other ho ▸ hget, hactive, hseen,
          hfails⟩

/-- What is reported when the networks are told of a change fails over what the network of the rule was
told of by then. -/
theorem Tracks.failsOver_of_inject (h : e.Tracks seen)
    (hrun : runStage (RunState.injectInto c) e e.slots.keys = .ok (failures, e')) :
    ∀ f ∈ failures, ∃ r held, e.Runs r ∧ seen r.id held ∧
      r.FailsOver e.evaluator e.graph (c.step held) f := by
  intro f hf
  obtain ⟨id, _, slot, held, hget, hactive, hseen, hfails⟩ :=
    failsOver_of_runStage e.slots.nodup_keys (fun id _ slot => h.slots id slot) hrun f hf
  obtain rfl := h.named id slot hget
  exact ⟨slot.rule, held, ⟨hactive, Option.map_eq_some_iff.2 ⟨slot, hget, rfl⟩⟩, hseen, hfails⟩

end RuleEngine

end Entail
