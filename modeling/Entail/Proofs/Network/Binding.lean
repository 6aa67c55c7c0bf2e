import Entail.Proofs.Network.Evaluation
/-!
# Bound variables

What is found in a network binds exactly the variables it should: a partial match those of the patterns
matched so far, a member of a group those of the positive patterns, and an output those that the
condition names. A row fails to be computed only over a group that has members.
-/

namespace Entail

variable {ev : Evaluator} {c : Condition} {held : Quad → Prop} {t : Token}

/-- `b` binds the variables of `s` and no others. -/
def Bindings.Binds (b : Bindings) (s : OrderedSet Variable) : Prop :=
  ∀ v, b.contains v = true ↔ v ∈ s

/-! ## Partial matches -/

namespace JoinChain

open Partial (Matches)

variable {seeds : Token → Prop} {bound : OrderedSet Variable} {pre ps : List Pattern}
  {chain : JoinChain} {i : Nat} {p : Partial}

theorem Holds.mem_level_iff (h : Holds seeds held bound pre ps chain) (hi : i ≤ ps.length) :
    p ∈ chain.level i ↔ Matches seeds held (pre ++ ps.take i) p := by
  induction h generalizing i with
  | @done pre complete _ hcomplete =>
      obtain rfl := Nat.le_zero.1 hi
      rw [List.take_zero, List.append_nil]
      exact hcomplete.mem_toList_iff
  | @stage pre ps q before facts rest hbefore _ _ _ _ ih =>
      cases i with
      | zero =>
          rw [List.take_zero, List.append_nil]
          exact hbefore.mem_toList_iff
      | succ i =>
          rw [List.take_succ_cons, List.append_cons]
          exact ih (Nat.le_of_succ_le_succ hi)

theorem Holds.level_eq_nil (h : Holds seeds held bound pre ps chain) (hi : ps.length < i) :
    chain.level i = [] := by
  induction h generalizing i with
  | done _ _ =>
      cases i with
      | zero => exact absurd hi (Nat.lt_irrefl 0)
      | succ i => rfl
  | stage _ _ _ _ _ ih =>
      cases i with
      | zero => exact absurd hi (Nat.not_lt_zero _)
      | succ i => exact ih (Nat.lt_of_succ_lt_succ hi)

theorem Holds.matches_of_mem_level (h : Holds seeds held bound pre ps chain)
    (hp : p ∈ chain.level i) : Matches seeds held (pre ++ ps.take i) p := by
  rcases Nat.lt_or_ge ps.length i with hi | hi
  · rw [h.level_eq_nil hi] at hp
    exact absurd hp List.not_mem_nil
  · exact (h.mem_level_iff hi).1 hp

/-- The partial matches of a chain bind what their seeds bind and the variables of the patterns so
far. -/
theorem Holds.contains_iff_of_mem_level (h : Holds seeds held bound [] ps chain)
    (hp : p ∈ chain.level i) {v : Variable} :
    p.bindings.contains v = true ↔
      p.seed.bindings.contains v = true ∨ ∃ q ∈ ps.take i, v ∈ q.vars :=
  Bindings.contains_iff_of_join? (h.matches_of_mem_level hp).join

end JoinChain

/-! ## Matches and rows -/

namespace Condition

theorem IsFound.binds (h : c.IsFound held t) : t.bindings.Binds c.positiveVariables :=
  (join?_positives_iff.1 h.2).2

theorem IsMatch.binds (h : c.IsMatch held t) : t.bindings.Binds c.positiveVariables :=
  h.2.binds

theorem IsOutput.binds (h : c.IsOutput ev held t) : t.bindings.Binds c.outputVariables := by
  unfold IsOutput at h
  unfold outputVariables
  cases ha : c.aggregation with
  | none =>
      rw [ha] at h
      exact IsMatch.binds h
  | some a =>
      rw [ha] at h
      obtain ⟨key, members, hne, hmembers, hrow⟩ := h
      obtain ⟨s, hs⟩ := OrderedSet.exists_mem_of_ne_empty hne
      have hlen := congrArg List.length ((hmembers s).1 hs).2
      rw [List.length_map, List.length_map] at hlen
      exact fun v => Aggregation.contains_row hrow hlen.symm

end Condition

namespace Network

/-- Everything found in the network binds exactly what it should. -/
structure BindsExactly (n : Network) : Prop where
  outputs : ∀ t ∈ n.outputs, t.bindings.Binds n.condition.outputVariables
  members : ∀ g, n.grouping = some g → ∀ key, ∀ t ∈ (g.group key).members,
    t.bindings.Binds n.condition.positiveVariables
  positive : ∀ i, ∀ p ∈ n.positive.level i, ∀ v,
    p.bindings.contains v = true ↔ ∃ q ∈ n.condition.positives.take i, v ∈ q.vars
  negative : List.Forall₂ (fun conjunction k => ∀ i, ∀ p ∈ k.chain.level i, ∀ v,
    p.bindings.contains v = true ↔
      v ∈ n.condition.positiveVariables ∨ ∃ q ∈ conjunction.take i, v ∈ q.vars)
    n.condition.negatives n.blockers

private theorem Sifts.binds {bound : OrderedSet Variable} {upstream : Token → Prop}
    {conjunctions : List (List Pattern)} {ks : List Blocker}
    (h : Sifts bound held upstream conjunctions ks)
    (hupstream : ∀ t, upstream t → t.bindings.Binds c.positiveVariables) :
    List.Forall₂ (fun conjunction k => ∀ i, ∀ p ∈ k.chain.level i, ∀ v,
      p.bindings.contains v = true ↔
        v ∈ c.positiveVariables ∨ ∃ q ∈ conjunction.take i, v ∈ q.vars) conjunctions ks := by
  induction h with
  | nil => exact .nil
  | @cons upstream conjunction conjunctions k rest hk _ ih =>
      refine .cons (fun i p hp v => ?_) (ih fun t ht => hupstream t ht.1)
      rw [hk.chain.contains_iff_of_mem_level hp,
        hupstream _ (hk.chain.matches_of_mem_level hp).seed v]

theorem Tracks.isGroup {n : Network} (h : n.Tracks ev held) {g : Grouping}
    (hg : n.grouping = some g) {key : List Node} (hne : (g.group key).members ≠ ∅) :
    n.condition.aggregation = some g.aggregation ∧
      g.aggregation.IsGroup (n.condition.IsMatch held) key (g.group key).members := by
  have hgrouping := h.grouping
  rw [hg] at hgrouping
  obtain ⟨a, ha, _, hholds⟩ := hgrouping
  exact ⟨hholds.aggregation_eq.symm ▸ ha, hne, hholds.files key⟩

theorem Tracks.bindsExactly {n : Network} (h : n.Tracks ev held) : n.BindsExactly where
  outputs t ht := ((h.outputs t).1 ht).binds
  members g hg key t ht := by
    have hne : (g.group key).members ≠ ∅ := by
      intro hempty
      rw [hempty] at ht
      exact OrderedSet.not_mem_empty t ht
    exact (((h.isGroup hg hne).2.mem_iff t).1 ht).1.binds
  positive i p hp v := by
    have hseed : p.seed = .root := (h.positive.matches_of_mem_level hp).seed
    rw [h.positive.contains_iff_of_mem_level hp, hseed]
    exact or_iff_right Bool.false_ne_true
  negative := h.blockers.binds fun _ ht => ht.binds

/-! ## Failures -/

variable {n n' : Network} {p : Propagation} {failure : Bindings × Error}

/-- A group that has members lacks its row, for the reason given. -/
def LacksRow (ev : Evaluator) (n : Network) (failure : Bindings × Error) : Prop :=
  ∃ g key, n.grouping = some g ∧ (g.group key).members ≠ ∅ ∧
    failure.1 = g.aggregation.groupBindings key ∧
    g.aggregation.row ev key (g.group key).members = .error failure.2

private theorem lacksRow_of_finish {positive : JoinChain} {blockers : List Blocker}
    {changes : List (Change Token)}
    (hrun : n.finish ev positive blockers changes = .ok (p, n')) (h : failure ∈ p.failures) :
    n'.LacksRow ev failure := by
  obtain ⟨⟨p', grouping⟩, hcollect, hrun⟩ := Result.bind_eq_ok_iff.1 hrun
  obtain ⟨outputs, _, hdone⟩ := Result.bind_eq_ok_iff.1 hrun
  obtain ⟨rfl, rfl⟩ := Prod.mk.inj (Except.ok.inj hdone)
  cases hg : n.grouping with
  | none =>
      rw [hg] at hcollect
      obtain ⟨rfl, rfl⟩ := Prod.mk.inj (Except.ok.inj hcollect)
      exact absurd h List.not_mem_nil
  | some g =>
      rw [hg] at hcollect
      obtain ⟨⟨p'', g'⟩, hreceive, hcollect⟩ := Result.bind_eq_ok_iff.1 hcollect
      obtain ⟨rfl, rfl⟩ := Prod.mk.inj (Except.ok.inj hcollect)
      obtain ⟨key, hkey⟩ := Grouping.failure_of_receiveAll hreceive h
      exact ⟨g', key, rfl, hkey⟩

theorem lacksRow_of_prime {contents : Contents} (hrun : n.prime ev contents = .ok (p, n'))
    (h : failure ∈ p.failures) : n'.LacksRow ev failure := by
  obtain ⟨_, _, hrun⟩ := Result.bind_eq_ok_iff.1 hrun
  obtain ⟨_, _, hrun⟩ := Result.bind_eq_ok_iff.1 hrun
  obtain ⟨_, _, hrun⟩ := Result.bind_eq_ok_iff.1 hrun
  obtain ⟨_, _, hrun⟩ := Result.bind_eq_ok_iff.1 hrun
  exact lacksRow_of_finish hrun h

theorem lacksRow_of_update {change : Change Quad} (hrun : n.update ev change = .ok (p, n'))
    (h : failure ∈ p.failures) : n'.LacksRow ev failure := by
  cases change with
  | gained q | lost q =>
      obtain ⟨_, _, hrun⟩ := Result.bind_eq_ok_iff.1 hrun
      obtain ⟨_, _, hrun⟩ := Result.bind_eq_ok_iff.1 hrun
      exact lacksRow_of_finish hrun h

end Network

end Entail
