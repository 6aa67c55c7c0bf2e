import Entail.Proofs.Network.Levels
import Entail.Proofs.Rules.Lagging
import Entail.Rules.Explain
/-!
# Match status

How far a rule gets. After a request that was answered the status lists at every positive pattern what
the stored quads bind that match the patterns so far; so the first pattern with nothing is the first that
nothing gets past, and there is none if anything comes out of the condition.
-/

namespace Entail

open RuleEngine

variable {ev : Evaluator} {graph : Node} {r : Rule} {stored : Quad → Prop} {b : Bindings} {i j n : Nat}

/-- A rule that runs has matches of its first `n` positive patterns, with the bindings `b`. -/
def Rule.Reaches (r : Rule) (stored : Quad → Prop) (n : Nat) (b : Bindings) : Prop :=
  r.active = true ∧ r.condition.Reaches stored n b

/-- Something comes out of the whole condition of a rule that runs, negation and aggregation included. -/
def Rule.IsComplete (r : Rule) (ev : Evaluator) (stored : Quad → Prop) : Prop :=
  r.active = true ∧ ∃ t, r.condition.IsOutput ev stored t

/-- What a status says of the rule is true over what is stored. -/
structure MatchStatus.Describes (m : MatchStatus) (ev : Evaluator) (r : Rule)
    (stored : Quad → Prop) : Prop where
  rule_eq : m.rule = r.id
  active_eq : m.active = r.active
  /-- There is a step for every positive pattern, in order. -/
  patterns_eq : m.steps.map MatchStep.pattern = r.condition.positives
  increasing : ∀ step ∈ m.steps, step.bindings.Pairwise fun b b' => compare b b' = .lt
  mem_iff : ∀ i step, m.steps[i]? = some step →
    ∀ b, b ∈ step.bindings ↔ r.Reaches stored (i + 1) b
  empty_after : ∀ (i j : Nat) (step later : MatchStep), i ≤ j → m.steps[i]? = some step →
    m.steps[j]? = some later → step.bindings = [] → later.bindings = []
  blockedAt_iff : ∀ i, m.blockedAt? = some i ↔ i < r.condition.positives.length ∧
    (∀ b, ¬ r.Reaches stored (i + 1) b) ∧ ∀ j < i, ∃ b, r.Reaches stored (j + 1) b
  isMatching_iff : m.isMatching = true ↔ r.IsComplete ev stored
  unblocked : r.IsComplete ev stored → m.blockedAt? = none

namespace Rule

theorem Reaches.exists_of_le {m : Nat} (h : r.Reaches stored n b) (hmn : m ≤ n) :
    ∃ found, r.Reaches stored m found :=
  (h.2.exists_of_le hmn).imp fun _ hfound => ⟨h.1, hfound⟩

theorem IsComplete.exists_reaches (h : r.IsComplete ev stored) (n : Nat) :
    ∃ found, r.Reaches stored n found := by
  obtain ⟨hactive, t, ht⟩ := h
  exact (ht.exists_reaches n).imp fun _ hfound => ⟨hactive, hfound⟩

end Rule

/-! ## One rule -/

namespace RuleSlot

variable {slot : RuleSlot} {step : MatchStep}

/-- The bindings at the positive pattern `i`. -/
def reached (slot : RuleSlot) (i : Nat) : OrderedSet Bindings :=
  match slot.network with
  | some network => network.stepBindings i
  | none => ∅

theorem steps_eq (slot : RuleSlot) : slot.steps =
    slot.rule.condition.positives.zipIdx.map fun pi => ⟨pi.1, (slot.reached pi.2).toList⟩ := by
  unfold steps reached
  cases slot.network with
  | none => rfl
  | some network => rfl

theorem getElem?_steps_eq_some_iff : slot.steps[i]? = some step ↔
    ∃ p, slot.rule.condition.positives[i]? = some p ∧ step = ⟨p, (slot.reached i).toList⟩ := by
  rw [steps_eq, List.getElem?_map, List.getElem?_zipIdx, Option.map_map, Option.map_eq_some_iff]
  simp only [Function.comp_apply, Nat.zero_add, eq_comm]

theorem Tracks.mem_reached_iff (h : slot.Tracks ev graph (· = stored))
    (hi : i < slot.rule.condition.positives.length) :
    b ∈ slot.reached i ↔ slot.rule.Reaches stored (i + 1) b := by
  unfold reached Rule.Reaches
  cases hn : slot.network with
  | none =>
      have hactive : ¬ slot.rule.active = true := fun hactive => by
        rw [h.active_iff, hn] at hactive
        cases hactive
      exact iff_of_false (OrderedSet.not_mem_empty b) fun hreaches => hactive hreaches.1
  | some network =>
      have hactive : slot.rule.active = true := by
        rw [h.active_iff, hn]
        rfl
      obtain ⟨hcondition, _, rfl, htracks, _⟩ := h.running network hn
      rw [← hcondition] at hi ⊢
      exact (htracks.mem_stepBindings_iff hi).trans (and_iff_right hactive).symm

theorem Tracks.mem_steps_iff (h : slot.Tracks ev graph (· = stored))
    (hstep : slot.steps[i]? = some step) :
    b ∈ step.bindings ↔ slot.rule.Reaches stored (i + 1) b := by
  obtain ⟨p, hp, rfl⟩ := getElem?_steps_eq_some_iff.1 hstep
  exact OrderedSet.mem_toList_iff.trans (h.mem_reached_iff (List.getElem?_eq_some_iff.1 hp).1)

theorem Tracks.bindings_eq_nil_iff (h : slot.Tracks ev graph (· = stored))
    (hstep : slot.steps[i]? = some step) :
    step.bindings = [] ↔ ∀ b, ¬ slot.rule.Reaches stored (i + 1) b := by
  rw [List.eq_nil_iff_forall_not_mem]
  exact forall_congr' fun b => not_congr (h.mem_steps_iff hstep)

theorem Tracks.findIdx?_steps_eq_some_iff (h : slot.Tracks ev graph (· = stored)) :
    slot.steps.findIdx? (fun step => step.bindings.isEmpty) = some i ↔
      i < slot.rule.condition.positives.length ∧ (∀ b, ¬ slot.rule.Reaches stored (i + 1) b) ∧
        ∀ j < i, ∃ b, slot.rule.Reaches stored (j + 1) b := by
  have hlength : slot.steps.length = slot.rule.condition.positives.length := by
    rw [steps_eq, List.length_map, List.length_zipIdx]
  have hempty : ∀ j (hj : j < slot.steps.length), slot.steps[j].bindings.isEmpty = true ↔
      ∀ b, ¬ slot.rule.Reaches stored (j + 1) b := fun j hj => by
    rw [List.isEmpty_iff]
    exact h.bindings_eq_nil_iff (List.getElem?_eq_getElem hj)
  rw [List.findIdx?_eq_some_iff_getElem, ← hlength]
  constructor
  · rintro ⟨hi, hnone, hsome⟩
    refine ⟨hi, (hempty i hi).1 hnone, fun j hj => ?_⟩
    by_contra hno
    exact hsome j hj ((hempty j (hj.trans hi)).2 (not_exists.1 hno))
  · rintro ⟨hi, hnone, hsome⟩
    refine ⟨hi, (hempty i hi).2 hnone, fun j hj hno => ?_⟩
    obtain ⟨b, hb⟩ := hsome j hj
    exact (hempty j (hj.trans hi)).1 hno b hb

theorem Tracks.solutions_ne_nil_iff (h : slot.Tracks ev graph (· = stored)) :
    slot.solutions ≠ [] ↔ slot.rule.IsComplete ev stored := by
  unfold solutions Rule.IsComplete
  cases hn : slot.network with
  | none =>
      rw [h.active_iff, hn]
      exact iff_of_false (fun hne => hne rfl) fun hcomplete => by cases hcomplete.1
  | some network =>
      obtain ⟨hcondition, _, rfl, htracks, _⟩ := h.running network hn
      rw [h.active_iff, hn, ← hcondition, ne_eq, List.map_eq_nil_iff,
        List.eq_nil_iff_forall_not_mem, not_forall]
      simp only [not_not, Network.tokens, OrderedSet.mem_toList_iff, htracks.outputs]
      exact (and_iff_right rfl).symm

theorem Tracks.describes (h : slot.Tracks ev graph (· = stored)) :
    MatchStatus.Describes ⟨slot.rule.id, slot.network.isSome, slot.steps, slot.solutions⟩ ev slot.rule
      stored where
  rule_eq := rfl
  active_eq := Bool.eq_iff_iff.2 h.active_iff.symm
  patterns_eq := by
    rw [steps_eq, List.map_map]
    exact List.zipIdx_map_fst 0 _
  increasing step hstep := by
    rw [steps_eq] at hstep
    obtain ⟨pi, _, rfl⟩ := List.mem_map.1 hstep
    exact (slot.reached pi.2).pairwise_toList
  mem_iff i step hstep b := h.mem_steps_iff hstep
  empty_after i j step later hij hstep hlater hempty := by
    rw [h.bindings_eq_nil_iff hstep] at hempty
    refine (h.bindings_eq_nil_iff hlater).2 fun b hb => ?_
    obtain ⟨found, hfound⟩ := hb.exists_of_le (Nat.succ_le_succ hij)
    exact hempty found hfound
  blockedAt_iff i := h.findIdx?_steps_eq_some_iff
  isMatching_iff := by
    rw [← h.solutions_ne_nil_iff, MatchStatus.isMatching, Bool.not_eq_true', ← Bool.not_eq_true,
      List.isEmpty_iff]
  unblocked hcomplete := by
    refine Option.eq_none_iff_forall_ne_some.2 fun i hblocked => ?_
    obtain ⟨_, hnone, _⟩ := h.findIdx?_steps_eq_some_iff.1 hblocked
    obtain ⟨b, hb⟩ := hcomplete.exists_reaches (i + 1)
    exact hnone b hb

end RuleSlot

/-! ## Sessions -/

namespace Session

/-- Whatever the rules and the requests, and whatever others write, at any moment: once a request is
answered, the status of every rule can be had, and what it says is true over what is stored then. At every
positive pattern it lists, in order and without repetition, what the stored quads bind that match the
patterns so far, and nothing if the rule is switched off; what is empty stays empty; the rule is blocked at
the first pattern that nothing gets past; and it is not blocked if anything comes out of its condition. -/
theorem matchStatus_describes (config : Config) (ev : Evaluator) (stored : List (Change Quad))
    (feed : ChangeFeed) (events : List Event) (request : Request) {report : FlushReport} :
    let opened := RuleEngine.new config ev ⟨Contents.empty.replay stored, feed⟩
    let s := events.foldl carryOut ⟨opened.1, opened.2, []⟩
    let o := request.carryOut s.engine s.store
    o.answer = .ok report → ∀ id r, o.engine.rule? id = some r →
      ∃ m, o.engine.matchStatus id = .ok m ∧ m.rule = id ∧ m.Describes ev r o.store.contents.Has := by
  intro opened s o hanswer id r hrule
  have hs : s.IsLagging config ev := (isLagging_new config ev stored feed).run events
  obtain ⟨hevaluator, htracks⟩ := hs.tracks_of_answer hanswer
  obtain ⟨slot, hget, rfl⟩ := Option.map_eq_some_iff.1 hrule
  have hid : slot.rule.id = id := htracks.named id slot hget
  have hslot := htracks.slots id slot hget
  rw [hevaluator] at hslot
  refine ⟨⟨id, slot.network.isSome, slot.steps, slot.solutions⟩, ?_, rfl, ?_⟩
  · unfold matchStatus
    have hget' : o.engine.slots.get? id = some slot := hget
    rw [hget']
  · subst hid
    exact hslot.describes

/-- Whose parent has a parent has a grandparent. -/
def grandparent : Rule where
  id := "grandparent"
  condition := ⟨[⟨.any, .variable ⟨"x"⟩, .node (.iri "parent"), .variable ⟨"y"⟩⟩,
    ⟨.any, .variable ⟨"y"⟩, .node (.iri "parent"), .variable ⟨"z"⟩⟩], [], none⟩
  guard := none
  conclusions := [⟨.variable ⟨"x"⟩, .node (.iri "grandparent"), .variable ⟨"z"⟩⟩]
  active := true

/-- Ben is a parent of Anna and has no parent himself: the rule gets past its first pattern and is
blocked at the second. -/
theorem grandparent_blocked :
    let opened := RuleEngine.new .default .standard ⟨Contents.empty.replay [], .empty⟩
    let s := List.foldl carryOut ⟨opened.1, opened.2, []⟩ [.request (.add grandparent),
      .mutate (.insert ⟨.iri "g", .iri "anna", .iri "parent", .iri "ben"⟩)]
    let o := Request.flush.carryOut s.engine s.store
    ∃ report m, o.answer = .ok report ∧ o.engine.matchStatus "grandparent" = .ok m ∧
      m.Describes .standard grandparent o.store.contents.Has ∧ m.blockedAt? = some 1 := by
  intro opened s o
  obtain ⟨hanswer, hrule, hblocked⟩ :
      o.answer.toBool = true ∧ o.engine.rule? "grandparent" = some grandparent ∧
      (o.engine.matchStatus "grandparent").toOption.bind MatchStatus.blockedAt? = some 1 := by
    decide +kernel
  cases hreport : o.answer with
  | error cause =>
      rw [hreport] at hanswer
      cases hanswer
  | ok report =>
      obtain ⟨m, hm, _, hdescribes⟩ := matchStatus_describes .default .standard [] .empty
        [.request (.add grandparent),
          .mutate (.insert ⟨.iri "g", .iri "anna", .iri "parent", .iri "ben"⟩)]
        .flush hreport "grandparent" grandparent hrule
      rw [hm] at hblocked
      exact ⟨report, m, rfl, hm, hdescribes, hblocked⟩

end Session

end Entail
