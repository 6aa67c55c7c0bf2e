import Entail.Proofs.Network.Delta
import Entail.Proofs.Rules.Support
import Entail.Rules.Firings
import Entail.Rules.Model
/-!
# Firings

The matches of a rule with their conclusions follow the outputs of the network of the rule, and the
support of the conclusions follows the matches.
-/

namespace Entail

variable {ev : Evaluator} {graph : Node}

/-! ## Conclusions -/

/-- A quad that may stand in the graph of the conclusions. -/
structure Quad.IsConclusion (graph : Node) (q : Quad) : Prop where
  graph_eq : q.graph = graph
  valid : q.validate = .ok ()

theorem Conclusion.resolve_eq_ok_iff {c : Conclusion} {b : Bindings} {q : Quad} :
    c.resolve ev graph b = .ok q ↔ c.subject.resolve ev b = .ok q.subject ∧
      c.predicate.resolve ev b = .ok q.predicate ∧ c.object.resolve ev b = .ok q.object ∧
      q.IsConclusion graph := by
  unfold Conclusion.resolve
  constructor
  · intro h
    obtain ⟨subject, hsubject, h⟩ := Result.bind_eq_ok_iff.1 h
    obtain ⟨predicate, hpredicate, h⟩ := Result.bind_eq_ok_iff.1 h
    obtain ⟨object, hobject, h⟩ := Result.bind_eq_ok_iff.1 h
    obtain ⟨_, hvalid, h⟩ := Result.bind_eq_ok_iff.1 h
    obtain rfl := Except.ok.inj h
    exact ⟨hsubject, hpredicate, hobject, rfl, hvalid⟩
  · obtain ⟨g, subject, predicate, object⟩ := q
    rintro ⟨hsubject, hpredicate, hobject, rfl, hvalid⟩
    simp only [hsubject, hpredicate, hobject, Result.ok_bind]
    rw [hvalid]
    rfl

namespace Rule

variable {r : Rule} {t : Token} {q : Quad}

theorem concludes_iff : r.Concludes ev graph t q ↔
    r.checkGuard ev t.bindings = .passed ∧
      ∃ c ∈ r.conclusions, c.resolve ev graph t.bindings = .ok q := by
  unfold Concludes instantiate
  cases r.checkGuard ev t.bindings with
  | blocked => simp
  | failed e => simp
  | passed =>
      simp only [true_and, List.mem_filterMap, List.mem_map]
      constructor
      · rintro ⟨drawn, ⟨⟨c, i⟩, hmem, rfl⟩, hleft⟩
        refine ⟨c, (List.mem_zipIdx hmem).2.2 ▸ List.getElem_mem _, ?_⟩
        cases hres : c.resolve ev graph t.bindings with
        | error e =>
            simp only [hres] at hleft
            cases hleft
        | ok q' =>
            simp only [hres] at hleft
            rw [Option.some_inj.1 hleft]
      · rintro ⟨c, hmem, hres⟩
        obtain ⟨i, hi, rfl⟩ := List.getElem_of_mem hmem
        refine ⟨.inl q, ⟨(r.conclusions[i], i), ?_, ?_⟩, rfl⟩
        · exact List.mem_zipIdx_iff_getElem?.2 (List.getElem?_eq_getElem hi)
        · simp only [hres]

theorem Concludes.isConclusion (h : r.Concludes ev graph t q) : q.IsConclusion graph := by
  obtain ⟨_, c, _, hres⟩ := concludes_iff.1 h
  obtain ⟨_, _, _, hconclusion⟩ := Conclusion.resolve_eq_ok_iff.1 hres
  exact hconclusion

end Rule

namespace RuleSlot

variable {slot : RuleSlot} {support : Support} {rest : String → Quad → Nat} {others : Quad → Nat}
  {out out' : Token → Prop}

/-- How often the matches of the slot conclude a quad. -/
def count (slot : RuleSlot) (q : Quad) : Nat :=
  slot.firings.sumOver fun _ qs => qs.count q

/-- The conclusions of a match. -/
abbrev drawn (slot : RuleSlot) (ev : Evaluator) (graph : Node) (t : Token) : List Quad :=
  (slot.rule.instantiate ev graph t.bindings).quads

/-- The firings are the tokens of `out` with their conclusions. -/
def Fires (slot : RuleSlot) (ev : Evaluator) (graph : Node) (out : Token → Prop) : Prop :=
  ∀ t qs, slot.firings.get? t = some qs ↔ out t ∧ qs = slot.drawn ev graph t

/-- The support counts the conclusions of the slot and those of `others`, which by rule are
`rest`. -/
def Balances (slot : RuleSlot) (support : Support) (rest : String → Quad → Nat)
    (others : Quad → Nat) : Prop :=
  support.Accounts (fun id q => if id = slot.rule.id then slot.count q else rest id q)
    fun q => others q + slot.count q

/-- What a support notes when matches of a rule come and go. -/
structure Notes (ev : Evaluator) (graph : Node) (r : Rule) (changes : List (Change Token))
    (s s' : Support) : Prop where
  raised_mono : ∀ q ∈ s.raised, q ∈ s'.raised
  lowered_mono : ∀ q ∈ s.lowered, q ∈ s'.lowered
  raised_from : ∀ q ∈ s'.raised, q ∈ s.raised ∨ ∃ t, .gained t ∈ changes ∧ r.Concludes ev graph t q
  lowered_from : ∀ q ∈ s'.lowered,
    q ∈ s.lowered ∨ ∃ t, .lost t ∈ changes ∧ r.Concludes ev graph t q
  raises : ∀ q, 0 < s'.total q → 0 < s.total q ∨ q ∈ s'.raised
  lowers : ∀ t, .lost t ∈ changes → ∀ q, r.Concludes ev graph t q → q ∈ s'.lowered

theorem Notes.nil (ev : Evaluator) (graph : Node) (r : Rule) (s : Support) :
    Notes ev graph r [] s s where
  raised_mono _ := id
  lowered_mono _ := id
  raised_from _ := Or.inl
  lowered_from _ := Or.inl
  raises _ := Or.inl
  lowers _ h := absurd h List.not_mem_nil

theorem Notes.append {r : Rule} {changes more : List (Change Token)} {s s₁ s₂ : Support}
    (h : Notes ev graph r changes s s₁) (h' : Notes ev graph r more s₁ s₂) :
    Notes ev graph r (changes ++ more) s s₂ where
  raised_mono q hq := h'.raised_mono q (h.raised_mono q hq)
  lowered_mono q hq := h'.lowered_mono q (h.lowered_mono q hq)
  raised_from q hq := by
    rcases h'.raised_from q hq with hq | ⟨t, ht, hc⟩
    · rcases h.raised_from q hq with hq | ⟨t, ht, hc⟩
      · exact Or.inl hq
      · exact Or.inr ⟨t, List.mem_append_left _ ht, hc⟩
    · exact Or.inr ⟨t, List.mem_append_right _ ht, hc⟩
  lowered_from q hq := by
    rcases h'.lowered_from q hq with hq | ⟨t, ht, hc⟩
    · rcases h.lowered_from q hq with hq | ⟨t, ht, hc⟩
      · exact Or.inl hq
      · exact Or.inr ⟨t, List.mem_append_left _ ht, hc⟩
    · exact Or.inr ⟨t, List.mem_append_right _ ht, hc⟩
  raises q hq := by
    rcases h'.raises q hq with hq | hq
    · rcases h.raises q hq with hq | hq
      · exact Or.inl hq
      · exact Or.inr (h'.raised_mono q hq)
    · exact Or.inr hq
  lowers t ht q hc := by
    rcases List.mem_append.1 ht with ht | ht
    · exact h'.lowered_mono q (h.lowers t ht q hc)
    · exact h'.lowers t ht q hc

theorem Notes.of_lowered {r : Rule} {changes : List (Change Token)} {s s' : Support}
    {qs : List Quad} (hraised : s'.raised = s.raised) (hlowered : s'.lowered = s.lowered ++ qs)
    (htotal : ∀ q, s'.total q ≤ s.total q)
    (hqs : ∀ q, q ∈ qs ↔ ∃ t, .lost t ∈ changes ∧ r.Concludes ev graph t q) :
    Notes ev graph r changes s s' where
  raised_mono q hq := by
    rw [hraised]
    exact hq
  lowered_mono q hq := by
    rw [hlowered]
    exact List.mem_append_left qs hq
  raised_from q hq := by
    rw [hraised] at hq
    exact Or.inl hq
  lowered_from q hq := by
    rw [hlowered, List.mem_append, hqs] at hq
    exact hq
  raises q hq := Or.inl (Nat.lt_of_lt_of_le hq (htotal q))
  lowers t ht q hc := by
    rw [hlowered, List.mem_append, hqs]
    exact Or.inr ⟨t, ht, hc⟩

/-! ## One match -/

private theorem count_insert {t : Token} {qs : List Quad} (h : slot.firings.get? t = none)
    (q : Quad) : ({ slot with firings := slot.firings.insert t qs } : RuleSlot).count q =
      slot.count q + qs.count q := by
  unfold count
  rw [OrderedMap.sumOver_insert, OrderedMap.erase_of_get?_none h, Nat.add_comm]

private theorem count_erase {t : Token} {qs : List Quad} (h : slot.firings.get? t = some qs)
    (q : Quad) : slot.count q =
      qs.count q + ({ slot with firings := slot.firings.erase t } : RuleSlot).count q :=
  OrderedMap.sumOver_of_get? h

private theorem fires_insert {t : Token} (h : slot.Fires ev graph out) :
    ({ slot with firings := slot.firings.insert t (slot.drawn ev graph t) } : RuleSlot).Fires
      ev graph (Update.insert.apply out t) := by
  intro s qs
  simp only
  rw [OrderedMap.get?_insert]
  by_cases hs : t = s
  · subst hs
    have hout : Update.insert.apply out t t := Or.inr rfl
    rw [if_pos rfl, Option.some_inj, eq_comm, and_iff_right hout]
  · rw [if_neg hs, h s qs, Update.apply_iff_of_ne (Ne.symm hs)]

private theorem fires_erase {t : Token} (h : slot.Fires ev graph out) :
    ({ slot with firings := slot.firings.erase t } : RuleSlot).Fires ev graph
      (Update.remove.apply out t) := by
  intro s qs
  simp only
  rw [OrderedMap.get?_erase]
  by_cases hs : t = s
  · subst hs
    have hout : ¬ Update.remove.apply out t t := fun hx => hx.2 rfl
    rw [if_pos rfl]
    exact iff_of_false nofun fun hx => hout hx.1
  · rw [if_neg hs, h s qs, Update.apply_iff_of_ne (Ne.symm hs)]

private theorem receive_gained (h : slot.Fires ev graph out)
    (hb : slot.Balances support rest others) {t : Token} (hfresh : ¬ out t) :
    ∃ failures slot' support',
      receive ev graph (slot, support) (.gained t) = .ok (failures, slot', support') ∧
      slot'.rule = slot.rule ∧ slot'.network = slot.network ∧
      slot'.Fires ev graph (Update.insert.apply out t) ∧ slot'.Balances support' rest others ∧
      Notes ev graph slot.rule [.gained t] support support' := by
  have hnone : slot.firings.get? t = none := by
    rw [← Option.not_isSome_iff_eq_none, Option.isSome_iff_exists]
    rintro ⟨qs, hqs⟩
    exact hfresh ((h t qs).1 hqs).1
  have hcontains : slot.firings.contains t = false := by
    rw [OrderedMap.contains, hnone]
    rfl
  obtain ⟨hacc, hlow, hkeep, hfrom, hnote⟩ :=
    hb.raiseAll slot.rule.id (slot.drawn ev graph t)
  have hnotes : Notes ev graph slot.rule [.gained t] support
      (support.raiseAll slot.rule.id (slot.drawn ev graph t)) := by
    refine ⟨hkeep, fun q hq => ?_, fun q hq => ?_, fun q hq => ?_, fun q hq => ?_, fun s hs => ?_⟩
    · rw [hlow]
      exact hq
    · rcases hfrom q hq with hq | hq
      · exact Or.inl hq
      · exact Or.inr ⟨t, List.mem_singleton_self _, hq⟩
    · rw [hlow] at hq
      exact Or.inl hq
    · rw [hacc.total_eq] at hq
      rw [hb.total_eq]
      by_cases hzero : others q + slot.count q = 0
      · have hcount : 0 < (slot.drawn ev graph t).count q := by omega
        exact Or.inr (hnote q (List.count_pos_iff.1 hcount) hzero)
      · exact Or.inl (Nat.pos_of_ne_zero hzero)
    · cases List.mem_singleton.1 hs
  refine ⟨(slot.rule.instantiate ev graph t.bindings).failures.map fun d =>
      ⟨slot.rule.id, t.bindings, d⟩,
    { slot with firings := slot.firings.insert t (slot.drawn ev graph t) },
    support.raiseAll slot.rule.id (slot.drawn ev graph t), ?_, rfl, rfl, fires_insert h, ?_, hnotes⟩
  · simp only [receive, hcontains]
    rfl
  · refine hacc.congr (fun id q => ?_) fun q => ?_
    · rw [Support.plus, count_insert hnone]
      split
      · rfl
      · rfl
    · rw [count_insert hnone, Nat.add_assoc]

private theorem receive_lost (h : slot.Fires ev graph out)
    (hb : slot.Balances support rest others) {t : Token} (hfresh : out t) :
    ∃ failures slot' support',
      receive ev graph (slot, support) (.lost t) = .ok (failures, slot', support') ∧
      slot'.rule = slot.rule ∧ slot'.network = slot.network ∧
      slot'.Fires ev graph (Update.remove.apply out t) ∧ slot'.Balances support' rest others ∧
      Notes ev graph slot.rule [.lost t] support support' := by
  have hget : slot.firings.get? t = some (slot.drawn ev graph t) :=
    (h t _).2 ⟨hfresh, rfl⟩
  have hcount := fun q => count_erase hget q
  have hrule : ∀ q, (slot.drawn ev graph t).count q ≤
      if slot.rule.id = slot.rule.id then slot.count q else rest slot.rule.id q := by
    intro q
    rw [if_pos rfl, hcount q]
    exact Nat.le_add_right _ _
  have htotal : ∀ q, (slot.drawn ev graph t).count q ≤
      others q + slot.count q := by
    intro q
    rw [hcount q]
    omega
  obtain ⟨support', hlower, hacc, hraised, hlowered⟩ := hb.lowerAll hrule htotal
  have hnotes : Notes ev graph slot.rule [.lost t] support support' := by
    refine .of_lowered hraised hlowered (fun q => ?_) fun q => ?_
    · rw [hacc.total_eq, hb.total_eq]
      omega
    · constructor
      · exact fun hq => ⟨t, List.mem_singleton_self _, hq⟩
      · rintro ⟨s, hs, hq⟩
        obtain rfl : s = t := Change.lost.inj (List.mem_singleton.1 hs)
        exact hq
  refine ⟨[], { slot with firings := slot.firings.erase t }, support', ?_, rfl, rfl,
    fires_erase h, ?_, hnotes⟩
  · simp only [receive, hget, hlower, Result.ok_bind]
    rfl
  · refine hacc.congr (fun id q => ?_) fun q => ?_
    · rw [Support.minus, hcount q]
      split
      · omega
      · omega
    · rw [hcount q]
      omega

/-! ## All matches -/

private theorem receive_spec (h : slot.Fires ev graph out)
    (hb : slot.Balances support rest others) {c : Change Token} (hfresh : c.IsFresh out) :
    ∃ failures slot' support',
      receive ev graph (slot, support) c = .ok (failures, slot', support') ∧
      slot'.rule = slot.rule ∧ slot'.network = slot.network ∧
      slot'.Fires ev graph (c.step out) ∧ slot'.Balances support' rest others ∧
      Notes ev graph slot.rule [c] support support' := by
  cases c with
  | gained t => exact receive_gained h hb hfresh
  | lost t => exact receive_lost h hb hfresh

private theorem runStage_receive (h : slot.Fires ev graph out)
    (hb : slot.Balances support rest others) {changes : List (Change Token)}
    (hchanges : Alters changes out out') :
    ∃ failures slot' support',
      runStage (receive ev graph) (slot, support) changes = .ok (failures, slot', support') ∧
      slot'.rule = slot.rule ∧ slot'.network = slot.network ∧
      slot'.Fires ev graph out' ∧ slot'.Balances support' rest others ∧
      Notes ev graph slot.rule changes support support' := by
  induction changes generalizing slot support out with
  | nil =>
      have heq : out = out' := by
        funext t
        exact propext (hchanges.iff_of_nil t)
      rw [heq] at h
      exact ⟨[], slot, support, rfl, rfl, rfl, h, hb, .nil _ _ _ _⟩
  | cons c more ih =>
      obtain ⟨hfresh, hmore⟩ := hchanges.cons
      obtain ⟨failures, slot₁, support₁, h₁, hr₁, hn₁, hf₁, hb₁, hnotes₁⟩ :=
        receive_spec h hb hfresh
      obtain ⟨failures', slot₂, support₂, h₂, hr₂, hn₂, hf₂, hb₂, hnotes₂⟩ := ih hf₁ hb₁ hmore
      rw [hr₁] at hr₂ hnotes₂
      rw [hn₁] at hn₂
      exact ⟨failures ++ failures', slot₂, support₂, runStage_cons h₁ h₂, hr₂, hn₂, hf₂, hb₂,
        hnotes₁.append hnotes₂⟩

/-- Taking in what came out of the network of the rule. -/
theorem absorb_spec (h : slot.Fires ev graph out) (hb : slot.Balances support rest others)
    {p : Propagation} (hp : Alters p.changes out out') :
    ∃ failures slot' support',
      slot.absorb ev graph support p = .ok (failures, slot', support') ∧
      slot'.rule = slot.rule ∧ slot'.network = slot.network ∧
      slot'.Fires ev graph out' ∧ slot'.Balances support' rest others ∧
      Notes ev graph slot.rule p.changes support support' := by
  obtain ⟨failures, slot', support', hrun, hspec⟩ := runStage_receive h hb hp
  refine ⟨p.failures.map (fun f => ⟨slot.rule.id, f.1, ⟨f.2, none⟩⟩) ++ failures, slot', support',
    ?_, hspec⟩
  rw [absorb, hrun]
  rfl

private theorem lowerAll_values {entries : List (Token × List Quad)}
    (hb : support.Accounts
      (fun id q => if id = slot.rule.id then (entries.map fun e => e.2.count q).sum else rest id q)
      fun q => others q + (entries.map fun e => e.2.count q).sum) :
    ∃ support', (entries.map Prod.snd).foldlM (fun s qs => s.lowerAll slot.rule.id qs) support =
        .ok support' ∧
      support'.Accounts (fun id q => if id = slot.rule.id then 0 else rest id q) others ∧
      support'.raised = support.raised ∧
      support'.lowered = support.lowered ++ entries.flatMap Prod.snd := by
  induction entries generalizing support with
  | nil =>
      refine ⟨support, rfl, hb.congr (fun id q => rfl) fun q => rfl, rfl, ?_⟩
      exact (List.append_nil _).symm
  | cons e more ih =>
      have hsum : ∀ q, ((e :: more).map fun e => e.2.count q).sum =
          e.2.count q + (more.map fun e => e.2.count q).sum := fun q => by
        rw [List.map_cons, List.sum_cons]
      have hrule : ∀ q, e.2.count q ≤ if slot.rule.id = slot.rule.id
          then ((e :: more).map fun e => e.2.count q).sum else rest slot.rule.id q := by
        intro q
        rw [if_pos rfl, hsum q]
        exact Nat.le_add_right _ _
      have htotal : ∀ q, e.2.count q ≤ others q + ((e :: more).map fun e => e.2.count q).sum := by
        intro q
        rw [hsum q]
        omega
      obtain ⟨support₁, h₁, hacc₁, hr₁, hl₁⟩ := hb.lowerAll hrule htotal
      have hb₁ : support₁.Accounts (fun id q => if id = slot.rule.id
          then (more.map fun e => e.2.count q).sum else rest id q)
          fun q => others q + (more.map fun e => e.2.count q).sum := by
        refine hacc₁.congr (fun id q => ?_) fun q => ?_
        · rw [Support.minus, hsum q]
          split
          · omega
          · omega
        · rw [hsum q]
          omega
      obtain ⟨support₂, h₂, hacc₂, hr₂, hl₂⟩ := ih hb₁
      refine ⟨support₂, ?_, hacc₂, ?_, ?_⟩
      · rw [List.map_cons, List.foldlM_cons, h₁, Result.ok_bind, h₂]
      · rw [hr₂, hr₁]
      · rw [hl₂, hl₁, List.append_assoc, List.flatMap_cons]

theorem clear_spec (h : slot.Fires ev graph out) (hb : slot.Balances support rest others) :
    ∃ support', slot.clear support = .ok ({ slot with firings := ∅ }, support') ∧
      support'.Accounts (fun id q => if id = slot.rule.id then 0 else rest id q) others ∧
      Notes ev graph slot.rule (slot.firings.keys.map .lost) support support' := by
  obtain ⟨support', hrun, hacc, hraised, hlowered⟩ := lowerAll_values hb
  have hkeys : ∀ t, .lost t ∈ slot.firings.keys.map Change.lost ↔ out t := by
    intro t
    rw [List.mem_map]
    constructor
    · rintro ⟨s, hs, heq⟩
      obtain rfl := Change.lost.inj heq
      obtain ⟨qs, hqs⟩ := OrderedMap.contains_iff.1 (OrderedMap.mem_keys_iff.1 hs)
      exact ((h s qs).1 hqs).1
    · intro ht
      have hget := (h t (slot.drawn ev graph t)).2 ⟨ht, rfl⟩
      have hcontains := OrderedMap.contains_iff.2 ⟨_, hget⟩
      exact ⟨t, OrderedMap.mem_keys_iff.2 hcontains, rfl⟩
  have hmem : ∀ q, q ∈ slot.firings.toList.flatMap Prod.snd ↔
      ∃ t, .lost t ∈ slot.firings.keys.map Change.lost ∧ slot.rule.Concludes ev graph t q := by
    intro q
    simp only [hkeys]
    rw [List.mem_flatMap]
    constructor
    · rintro ⟨⟨t, qs⟩, he, hq⟩
      obtain ⟨ht, rfl⟩ := (h t qs).1 (OrderedMap.mem_toList_iff.1 he)
      exact ⟨t, ht, hq⟩
    · rintro ⟨t, ht, hq⟩
      have hget := (h t (slot.drawn ev graph t)).2 ⟨ht, rfl⟩
      exact ⟨(t, _), OrderedMap.mem_toList_iff.2 hget, hq⟩
  have htotal : ∀ q, support'.total q ≤ support.total q := by
    intro q
    rw [hacc.total_eq, hb.total_eq]
    omega
  refine ⟨support', ?_, hacc, .of_lowered hraised hlowered htotal hmem⟩
  have hvalues : slot.firings.values = slot.firings.toList.map Prod.snd := rfl
  rw [clear, hvalues, hrun]
  rfl

end RuleSlot

end Entail
