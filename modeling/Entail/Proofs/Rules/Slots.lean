import Entail.Proofs.Network.Scope
import Entail.Proofs.Rules.Firings
import Entail.Rules.Requests
/-!
# Slots

The networks of the active rules follow the quads they are told of, each slot fires for the outputs
of its network, and the support of the engine counts what all slots conclude. Telling the networks
of a change, waking a rule and putting one to rest keep it so.
-/

namespace Entail

/-! ## One slot -/

/-- The sets that result from those seen. -/
def stepped (c : Change Quad) (seen : (Quad → Prop) → Prop) (held : Quad → Prop) : Prop :=
  ∃ before, seen before ∧ held = c.step before

namespace RuleSlot

variable {seen seen' : (Quad → Prop) → Prop} {ev : Evaluator} {graph : Node} {slot : RuleSlot}

/-- An active slot has a network that was told of one of the sets in `seen`, and fires for its
outputs; an inactive one does not fire. -/
structure Tracks (slot : RuleSlot) (ev : Evaluator) (graph : Node) (seen : (Quad → Prop) → Prop) :
    Prop where
  valid : slot.rule.problem? = none
  active_iff : slot.rule.active = true ↔ slot.network.isSome = true
  idle : slot.network = none → slot.firings = ∅
  running : ∀ n, slot.network = some n → n.condition = slot.rule.condition ∧ ∃ held, seen held ∧
    n.Tracks ev held ∧ slot.Fires ev graph (slot.rule.condition.IsOutput ev held)

theorem Tracks.mono (h : slot.Tracks ev graph seen) (hseen : ∀ held, seen held → seen' held) :
    slot.Tracks ev graph seen' where
  valid := h.valid
  active_iff := h.active_iff
  idle := h.idle
  running n hn := by
    obtain ⟨hc, held, hheld, hspec⟩ := h.running n hn
    exact ⟨hc, held, hseen held hheld, hspec⟩

theorem Tracks.exists_fires (h : slot.Tracks ev graph seen) : ∃ out, slot.Fires ev graph out := by
  cases hn : slot.network with
  | none =>
      refine ⟨fun _ => False, fun t qs => iff_of_false ?_ fun hx => hx.1⟩
      rw [h.idle hn]
      exact nofun
  | some n =>
      obtain ⟨_, held, _, _, hfires⟩ := h.running n hn
      exact ⟨_, hfires⟩

theorem Tracks.eq_drawn (h : slot.Tracks ev graph seen) {t : Token} {qs : List Quad}
    (hget : slot.firings.get? t = some qs) : qs = slot.drawn ev graph t := by
  obtain ⟨_, hfires⟩ := h.exists_fires
  exact ((hfires t qs).1 hget).2

theorem Tracks.eq_of_inactive (h : slot.Tracks ev graph seen) (hrule : slot.rule.active = false) :
    slot = ⟨slot.rule, none, ∅⟩ := by
  have hnetwork : slot.network = none := by
    rw [← Option.not_isSome_iff_eq_none, ← h.active_iff, hrule]
    exact Bool.false_ne_true
  have hfirings := h.idle hnetwork
  obtain ⟨rule, network, firings⟩ := slot
  obtain rfl : network = none := hnetwork
  obtain rfl : firings = ∅ := hfirings
  rfl

theorem Tracks.switchOn_eq (h : slot.Tracks ev graph seen) (hrule : slot.rule.active = false) :
    ({ slot with rule := { slot.rule with active := true } } : RuleSlot) =
      ⟨{ slot.rule with active := true }, none, ∅⟩ := by
  rw [h.eq_of_inactive hrule]

theorem count_of_idle (h : slot.firings = ∅) (q : Quad) : slot.count q = 0 := by
  rw [count, h]
  rfl

theorem Tracks.of_network {n : Network} {held : Quad → Prop} (hvalid : slot.rule.problem? = none)
    (hactive : slot.rule.active = true) (hn : slot.network = some n)
    (hcond : n.condition = slot.rule.condition) (hseen : seen held) (htracks : n.Tracks ev held)
    (hfires : slot.Fires ev graph (slot.rule.condition.IsOutput ev held)) :
    slot.Tracks ev graph seen where
  valid := hvalid
  active_iff := by
    rw [hactive, hn]
    exact iff_of_true rfl rfl
  idle hnone := by
    rw [hn] at hnone
    cases hnone
  running m hm := by
    obtain rfl : n = m := Option.some_inj.1 (hn.symm.trans hm)
    exact ⟨hcond, held, hseen, htracks, hfires⟩

theorem Tracks.of_idle (hvalid : slot.rule.problem? = none) (hactive : slot.rule.active = false)
    (hn : slot.network = none) (hidle : slot.firings = ∅) : slot.Tracks ev graph seen where
  valid := hvalid
  active_iff := by
    rw [hactive, hn]
    exact iff_of_false Bool.false_ne_true Bool.false_ne_true
  idle _ := hidle
  running m hm := by
    rw [hn] at hm
    cases hm

theorem Tracks.tell {n : Network} {support : Support} {rest : String → Quad → Nat}
    {others : Quad → Nat} (h : slot.Tracks ev graph seen) (hn : slot.network = some n)
    (hb : slot.Balances support rest others) (c : Change Quad) :
    ∃ held p n' failures slot' support', n.update ev c = .ok (p, n') ∧
      { slot with network := some n' }.absorb ev graph support p = .ok (failures, slot', support') ∧
      slot'.rule = slot.rule ∧ slot'.Tracks ev graph (stepped c seen) ∧
      slot'.Balances support' rest others ∧ seen held ∧
      slot.Fires ev graph (slot.rule.condition.IsOutput ev held) ∧
      slot'.Fires ev graph (slot.rule.condition.IsOutput ev (c.step held)) ∧
      Alters p.changes (slot.rule.condition.IsOutput ev held)
        (slot.rule.condition.IsOutput ev (c.step held)) ∧
      Notes ev graph slot.rule p.changes support support' := by
  obtain ⟨hcond, held, hseen, htracks, hfires⟩ := h.running n hn
  obtain ⟨p, n', hupdate, hcond', htracks', halters⟩ := htracks.update_spec c
  rw [hcond] at halters
  -- the new network is told of before what it puts out, so the slot that fires is another record
  have hfires' : ({ slot with network := some n' } : RuleSlot).Fires ev graph
      (slot.rule.condition.IsOutput ev held) := hfires
  have hb' : ({ slot with network := some n' } : RuleSlot).Balances support rest others := hb
  obtain ⟨failures, slot', support', habsorb, hrule, hnetwork, hfired, hbalances, hnotes⟩ :=
    absorb_spec hfires' hb' halters
  have hrule' : slot'.rule = slot.rule := hrule
  have htold : slot'.Tracks ev graph (stepped c seen) := by
    have hactive : slot.rule.active = true := by rw [h.active_iff, hn, Option.isSome_some]
    refine .of_network (hrule' ▸ h.valid) (hrule' ▸ hactive) hnetwork ?_ ⟨held, hseen, rfl⟩
      htracks' ?_
    · rw [hrule', hcond', hcond]
    · rw [hrule']
      exact hfired
  exact ⟨held, p, n', failures, slot', support', hupdate, habsorb, hrule', htold, hbalances, hseen,
    hfires, hfired, halters, hnotes⟩

end RuleSlot

/-! ## All slots -/

/-- How often the matches of the rule `id` conclude `q`. -/
def slotCount (slots : OrderedMap String RuleSlot) (id : String) (q : Quad) : Nat :=
  match slots.get? id with
  | none => 0
  | some slot => slot.count q

/-- How often all matches conclude `q`. -/
def slotTotal (slots : OrderedMap String RuleSlot) (q : Quad) : Nat :=
  slots.sumOver fun _ slot => slot.count q

section Counts

variable {slots : OrderedMap String RuleSlot} {slot slot' : RuleSlot} {id : String}
  {support : Support}

private theorem slotCount_insert (slots : OrderedMap String RuleSlot) (id : String)
    (slot : RuleSlot) (id' : String) (q : Quad) :
    slotCount (slots.insert id slot) id' q =
      if id' = id then slot.count q else slotCount slots id' q := by
  rw [slotCount, OrderedMap.get?_insert]
  by_cases heq : id = id'
  · rw [if_pos heq, if_pos heq.symm]
  · rw [if_neg heq, if_neg (Ne.symm heq)]
    rfl

private theorem slotCount_erase (slots : OrderedMap String RuleSlot) (id id' : String) (q : Quad) :
    slotCount (slots.erase id) id' q = if id' = id then 0 else slotCount slots id' q := by
  rw [slotCount, OrderedMap.get?_erase]
  by_cases heq : id = id'
  · rw [if_pos heq, if_pos heq.symm]
  · rw [if_neg heq, if_neg (Ne.symm heq)]
    rfl

private theorem slotTotal_insert (slots : OrderedMap String RuleSlot) (id : String)
    (slot : RuleSlot) (q : Quad) :
    slotTotal (slots.insert id slot) q = slotTotal (slots.erase id) q + slot.count q := by
  rw [slotTotal, slotTotal, OrderedMap.sumOver_insert, Nat.add_comm]

private theorem balances_of_accounts (h : support.Accounts (slotCount slots) (slotTotal slots))
    (hget : slots.get? id = some slot) (hid : slot.rule.id = id) :
    slot.Balances support (slotCount slots) (slotTotal (slots.erase id)) := by
  refine h.congr (fun id' q => ?_) fun q => ?_
  · split
    · rename_i heq
      rw [slotCount, heq, hid, hget]
    · rfl
  · rw [slotTotal, OrderedMap.sumOver_of_get? hget, Nat.add_comm]
    rfl

private theorem accounts_of_balances
    (h : slot'.Balances support (slotCount slots) (slotTotal (slots.erase id)))
    (hid : slot'.rule.id = id) :
    support.Accounts (slotCount (slots.insert id slot')) (slotTotal (slots.insert id slot')) := by
  refine h.congr (fun id' q => ?_) fun q => (slotTotal_insert slots id slot' q).symm
  rw [slotCount_insert, hid]

private theorem accounts_of_cleared
    (h : support.Accounts (fun id' q => if id' = id then 0 else slotCount slots id' q)
      (slotTotal (slots.erase id))) (hidle : slot'.firings = ∅) :
    support.Accounts (slotCount (slots.insert id slot')) (slotTotal (slots.insert id slot')) := by
  refine h.congr (fun id' q => ?_) fun q => ?_
  · rw [slotCount_insert, RuleSlot.count_of_idle hidle]
  · rw [slotTotal_insert, RuleSlot.count_of_idle hidle, Nat.add_zero]

private theorem accounts_of_erased
    (h : support.Accounts (fun id' q => if id' = id then 0 else slotCount slots id' q)
      (slotTotal (slots.erase id))) :
    support.Accounts (slotCount (slots.erase id)) (slotTotal (slots.erase id)) :=
  h.congr (fun id' q => (slotCount_erase slots id id' q).symm) fun _ => rfl

private theorem accounts_of_new (h : support.Accounts (slotCount slots) (slotTotal slots))
    (hnone : slots.get? id = none) (hidle : slot'.firings = ∅) :
    support.Accounts (slotCount (slots.insert id slot')) (slotTotal (slots.insert id slot')) := by
  refine accounts_of_cleared (h.congr (fun id' q => ?_) fun q => ?_) hidle
  · split
    · rename_i heq
      rw [slotCount, heq, hnone]
    · rfl
  · rw [OrderedMap.erase_of_get?_none hnone]

end Counts

namespace RuleEngine

variable {e e' : RuleEngine} {c : Change Quad} {id : String}
  {seen : String → (Quad → Prop) → Prop}

/-- All slots follow what they are told, and the support counts what they conclude. -/
structure Tracks (e : RuleEngine) (seen : String → (Quad → Prop) → Prop) : Prop where
  named : ∀ id slot, e.slots.get? id = some slot → slot.rule.id = id
  slots : ∀ id slot, e.slots.get? id = some slot → slot.Tracks e.evaluator e.graph (seen id)
  accounts : e.support.Accounts (slotCount e.slots) (slotTotal e.slots)

theorem tracks_of_empty (hslots : e.slots = ∅) (hsupport : e.support = .empty) :
    e.Tracks seen where
  named := by
    rw [hslots]
    exact nofun
  slots := by
    rw [hslots]
    exact nofun
  accounts := by
    rw [hslots, hsupport]
    exact Support.accounts_empty.congr (fun _ _ => rfl) fun _ => rfl

theorem Tracks.mono {seen' : String → (Quad → Prop) → Prop} (h : e.Tracks seen)
    (hseen : ∀ id held, seen id held → seen' id held) : e.Tracks seen' where
  named := h.named
  slots id slot hget := (h.slots id slot hget).mono (hseen id)
  accounts := h.accounts

/-- The rule `r` is there and switched on. -/
def Runs (e : RuleEngine) (r : Rule) : Prop :=
  r.active = true ∧ e.rule? r.id = some r

/-- The match `t` of the rule `r` fires. -/
def Fires (e : RuleEngine) (r : Rule) (t : Token) : Prop :=
  ∃ slot, e.slots.get? r.id = some slot ∧ slot.rule = r ∧ slot.firings.contains t = true

theorem fires_iff_of_slot {r : Rule} {slot : RuleSlot} {out : Token → Prop} {t : Token}
    (hget : e.slots.get? r.id = some slot) (hrule : slot.rule = r)
    (hfires : slot.Fires e.evaluator e.graph out) : e.Fires r t ↔ out t := by
  constructor
  · rintro ⟨slot', hget', _, hcontains⟩
    rw [hget] at hget'
    obtain rfl := Option.some_inj.1 hget'
    obtain ⟨qs, hqs⟩ := OrderedMap.contains_iff.1 hcontains
    exact ((hfires t qs).1 hqs).1
  · intro ht
    have hfiled := (hfires t (slot.drawn e.evaluator e.graph t)).2 ⟨ht, rfl⟩
    exact ⟨slot, hget, hrule, OrderedMap.contains_iff.2 ⟨_, hfiled⟩⟩

/-- The rule fires for what comes out of `held`. -/
def FiresOver (e : RuleEngine) (r : Rule) (held : Quad → Prop) : Prop :=
  ∀ t, e.Fires r t ↔ r.condition.IsOutput e.evaluator held t

theorem Tracks.fires_iff (h : e.Tracks seen) {r : Rule} (hr : e.Runs r) :
    ∃ held, seen r.id held ∧ e.FiresOver r held := by
  obtain ⟨hactive, hrule⟩ := hr
  obtain ⟨slot, hget, rfl⟩ := Option.map_eq_some_iff.1 hrule
  have hslot := h.slots _ slot hget
  obtain ⟨n, hn⟩ := Option.isSome_iff_exists.1 (hslot.active_iff.1 hactive)
  obtain ⟨_, held, hseen, _, hfires⟩ := hslot.running n hn
  exact ⟨held, hseen, fun t => fires_iff_of_slot hget rfl hfires⟩

/-- Every rule fires over some set, which can be taken for the one its network was told of. -/
theorem Tracks.firesOver (h : e.Tracks seen) :
    e.Tracks fun id held => ∀ r, e.Runs r → r.id = id → e.FiresOver r held where
  named := h.named
  slots id slot hget := by
    have hslot := h.slots id slot hget
    refine ⟨hslot.valid, hslot.active_iff, hslot.idle, fun n hn => ?_⟩
    obtain ⟨hcondition, held, _, htracks, hfires⟩ := hslot.running n hn
    refine ⟨hcondition, held, fun r hr hid t => ?_, htracks, hfires⟩
    obtain ⟨slot', hget', hrule⟩ := Option.map_eq_some_iff.1 hr.2
    have hsame := hget'
    rw [hid, hget] at hsame
    obtain rfl := Option.some_inj.1 hsame
    subst hrule
    exact fires_iff_of_slot hget' rfl hfires
  accounts := h.accounts

theorem Tracks.runs_of_fires (h : e.Tracks seen) {r : Rule} {t : Token} (hf : e.Fires r t) :
    e.Runs r := by
  obtain ⟨slot, hget, rfl, hcontains⟩ := hf
  have hslot := h.slots _ slot hget
  refine ⟨?_, Option.map_eq_some_iff.2 ⟨slot, hget, rfl⟩⟩
  rw [hslot.active_iff, Option.isSome_iff_ne_none]
  intro hn
  rw [hslot.idle hn] at hcontains
  cases hcontains

theorem Tracks.total_pos_iff (h : e.Tracks seen) {q : Quad} :
    0 < e.support.total q ↔ ∃ r t, e.Fires r t ∧ r.Concludes e.evaluator e.graph t q := by
  rw [h.accounts.total_eq, slotTotal, OrderedMap.sumOver_pos_iff]
  have hslot : ∀ id slot, e.slots.get? id = some slot → (0 < slot.count q ↔
      ∃ t, slot.firings.contains t = true ∧
        slot.rule.Concludes e.evaluator e.graph t q) := by
    intro id slot hget
    rw [RuleSlot.count, OrderedMap.sumOver_pos_iff]
    have htracks := h.slots id slot hget
    constructor
    · rintro ⟨t, qs, hqs, hpos⟩
      refine ⟨t, OrderedMap.contains_iff.2 ⟨qs, hqs⟩, ?_⟩
      rw [htracks.eq_drawn hqs] at hpos
      exact List.count_pos_iff.1 hpos
    · rintro ⟨t, ht, hq⟩
      obtain ⟨qs, hqs⟩ := OrderedMap.contains_iff.1 ht
      refine ⟨t, qs, hqs, ?_⟩
      rw [htracks.eq_drawn hqs]
      exact List.count_pos_iff.2 hq
  constructor
  · rintro ⟨id, slot, hget, hpos⟩
    obtain ⟨t, ht, hq⟩ := (hslot id slot hget).1 hpos
    have hid := h.named id slot hget
    exact ⟨slot.rule, t, ⟨slot, by rw [hid, hget], rfl, ht⟩, hq⟩
  · rintro ⟨r, t, ⟨slot, hget, rfl, ht⟩, hq⟩
    exact ⟨slot.rule.id, slot, hget, (hslot _ slot hget).2 ⟨t, ht, hq⟩⟩

/-- What may happen to the firings and the support when matches that satisfy `gains` come and
matches that satisfy `loses` go. -/
structure Evolves (e e' : RuleEngine) (gains loses : Rule → Token → Prop) : Prop where
  raised_mono : ∀ q ∈ e.support.raised, q ∈ e'.support.raised
  lowered_mono : ∀ q ∈ e.support.lowered, q ∈ e'.support.lowered
  raised_from : ∀ q ∈ e'.support.raised, q ∈ e.support.raised ∨
    ∃ r t, gains r t ∧ r.Concludes e.evaluator e.graph t q
  lowered_from : ∀ q ∈ e'.support.lowered, q ∈ e.support.lowered ∨
    ∃ r t, loses r t ∧ r.Concludes e.evaluator e.graph t q
  raises : ∀ q, 0 < e'.support.total q → 0 < e.support.total q ∨ q ∈ e'.support.raised
  kept : ∀ r t, e.Fires r t → e'.Fires r t ∨
    (loses r t ∧ ∀ q, r.Concludes e.evaluator e.graph t q → q ∈ e'.support.lowered)

theorem Evolves.refl (e : RuleEngine) (gains loses : Rule → Token → Prop) :
    e.Evolves e gains loses where
  raised_mono _ := id
  lowered_mono _ := id
  raised_from _ := Or.inl
  lowered_from _ := Or.inl
  raises _ := Or.inl
  kept _ _ := Or.inl

/-- Only the slots and the support differ. -/
structure SameBut (e e' : RuleEngine) : Prop where
  config_eq : e'.config = e.config
  evaluator_eq : e'.evaluator = e.evaluator
  subscription_eq : e'.subscription = e.subscription
  pending_eq : e'.pending = e.pending
  suspects_eq : e'.suspects = e.suspects
  withdrawn_eq : e'.withdrawn = e.withdrawn
  deferred_eq : e'.deferred = e.deferred

theorem SameBut.graph_eq (h : e.SameBut e') : e'.graph = e.graph := by
  rw [graph, graph, h.config_eq]

theorem SameBut.refl (e : RuleEngine) : e.SameBut e :=
  ⟨rfl, rfl, rfl, rfl, rfl, rfl, rfl⟩

theorem SameBut.trans {e'' : RuleEngine} (h : e.SameBut e') (h' : e'.SameBut e'') :
    e.SameBut e'' where
  config_eq := by rw [h'.config_eq, h.config_eq]
  evaluator_eq := by rw [h'.evaluator_eq, h.evaluator_eq]
  subscription_eq := by rw [h'.subscription_eq, h.subscription_eq]
  pending_eq := by rw [h'.pending_eq, h.pending_eq]
  suspects_eq := by rw [h'.suspects_eq, h.suspects_eq]
  withdrawn_eq := by rw [h'.withdrawn_eq, h.withdrawn_eq]
  deferred_eq := by rw [h'.deferred_eq, h.deferred_eq]

theorem Evolves.trans {e'' : RuleEngine} {gains loses : Rule → Token → Prop} (hs : e.SameBut e')
    (h : e.Evolves e' gains loses) (h' : e'.Evolves e'' gains loses) :
    e.Evolves e'' gains loses where
  raised_mono q hq := h'.raised_mono q (h.raised_mono q hq)
  lowered_mono q hq := h'.lowered_mono q (h.lowered_mono q hq)
  raised_from q hq := by
    rcases h'.raised_from q hq with hq | hq
    · exact h.raised_from q hq
    · rw [hs.evaluator_eq, hs.graph_eq] at hq
      exact Or.inr hq
  lowered_from q hq := by
    rcases h'.lowered_from q hq with hq | hq
    · exact h.lowered_from q hq
    · rw [hs.evaluator_eq, hs.graph_eq] at hq
      exact Or.inr hq
  raises q hq := by
    rcases h'.raises q hq with hq | hq
    · exact (h.raises q hq).imp_right (h'.raised_mono q)
    · exact Or.inr hq
  kept r t hf := by
    rcases h.kept r t hf with hf | ⟨hl, hlowered⟩
    · rcases h'.kept r t hf with hf | ⟨hl, hlowered⟩
      · exact Or.inl hf
      · rw [hs.evaluator_eq, hs.graph_eq] at hlowered
        exact Or.inr ⟨hl, hlowered⟩
    · exact Or.inr ⟨hl, fun q hc => h'.lowered_mono q (hlowered q hc)⟩

/-! ## Telling the networks of a change -/

/-- A match of a rule that is an output once the change is taken in and was none before. -/
def Appears (e : RuleEngine) (c : Change Quad) (seen : String → (Quad → Prop) → Prop) (r : Rule)
    (t : Token) : Prop :=
  e.Runs r ∧ ∃ held, seen r.id held ∧ ¬ r.condition.IsOutput e.evaluator held t ∧
    r.condition.IsOutput e.evaluator (c.step held) t

/-- A match of a rule that was an output and is none once the change is taken in. -/
def Vanishes (e : RuleEngine) (c : Change Quad) (seen : String → (Quad → Prop) → Prop) (r : Rule)
    (t : Token) : Prop :=
  e.Runs r ∧ ∃ held, seen r.id held ∧ r.condition.IsOutput e.evaluator held t ∧
    ¬ r.condition.IsOutput e.evaluator (c.step held) t

/-- The sets seen while the rules in `todo` have not been told of the change. -/
private def between (c : Change Quad) (seen : String → (Quad → Prop) → Prop) (todo : List String)
    (id : String) : (Quad → Prop) → Prop :=
  if id ∈ todo then seen id else stepped c (seen id)

private theorem Tracks.replace {todo : List String} {slot slot' : RuleSlot} {support : Support}
    (h : e.Tracks (between c seen (id :: todo))) (hget : e.slots.get? id = some slot)
    (hnot : id ∉ todo) (hrule : slot'.rule = slot.rule)
    (hslot' : slot'.Tracks e.evaluator e.graph (stepped c (seen id)))
    (hbalances : slot'.Balances support (slotCount e.slots) (slotTotal (e.slots.erase id))) :
    ({ e with slots := e.slots.insert id slot', support } : RuleEngine).Tracks
      (between c seen todo) where
  named := by
    refine OrderedMap.forall_get?_insert ?_ fun id' s _ => h.named id' s
    rw [hrule, h.named id slot hget]
  slots := by
    refine OrderedMap.forall_get?_insert ?_ fun id' s hne hs => ?_
    · rw [between, if_neg hnot]
      exact hslot'
    · have hs' := h.slots id' s hs
      rw [between] at hs' ⊢
      by_cases hmem : id' ∈ todo
      · rw [if_pos hmem]
        rwa [if_pos (List.mem_cons_of_mem _ hmem)] at hs'
      · rw [if_neg hmem]
        rwa [if_neg (fun hin => hmem ((List.mem_cons.1 hin).resolve_left hne))] at hs'
  accounts := accounts_of_balances hbalances (by rw [hrule, h.named id slot hget])

private theorem rule?_insert {slot slot' : RuleSlot} {support : Support}
    (hget : e.slots.get? id = some slot) (hrule : slot'.rule = slot.rule) (id' : String) :
    ({ e with slots := e.slots.insert id slot', support } : RuleEngine).rule? id' =
      e.rule? id' := by
  rw [rule?, rule?, OrderedMap.get?_insert]
  split
  · rename_i heq
    rw [← heq, hget, Option.map_some, Option.map_some, hrule]
  · rfl

private theorem Tracks.skip {todo : List String} (h : e.Tracks (between c seen (id :: todo)))
    (hskip : ∀ slot, e.slots.get? id = some slot → slot.network = none) :
    e.Tracks (between c seen todo) where
  named := h.named
  accounts := h.accounts
  slots id' slot hget := by
    have hslot := h.slots id' slot hget
    by_cases heq : id' = id
    · subst heq
      have hn := hskip slot hget
      exact ⟨hslot.valid, hslot.active_iff, hslot.idle, fun n hn' => absurd (hn ▸ hn') nofun⟩
    · rw [between] at hslot ⊢
      simpa only [List.mem_cons, heq, false_or] using hslot

private theorem evolves_of_notes {slot slot' : RuleSlot} {support : Support} {held : Quad → Prop}
    {changes : List (Change Token)} (hget : e.slots.get? slot.rule.id = some slot)
    (hrule : slot'.rule = slot.rule) (hruns : e.Runs slot.rule) (hseen : seen slot.rule.id held)
    (hfires : slot.Fires e.evaluator e.graph (slot.rule.condition.IsOutput e.evaluator held))
    (hfired : slot'.Fires e.evaluator e.graph
      (slot.rule.condition.IsOutput e.evaluator (c.step held)))
    (halters : Alters changes (slot.rule.condition.IsOutput e.evaluator held)
      (slot.rule.condition.IsOutput e.evaluator (c.step held)))
    (hnotes : RuleSlot.Notes e.evaluator e.graph slot.rule changes e.support support) :
    e.Evolves { e with slots := e.slots.insert slot.rule.id slot', support } (e.Appears c seen)
      (e.Vanishes c seen) := by
  refine ⟨hnotes.raised_mono, hnotes.lowered_mono, fun q hq => ?_, fun q hq => ?_, hnotes.raises,
    fun r t hf => ?_⟩
  · rcases hnotes.raised_from q hq with hq | ⟨t, ht, hc⟩
    · exact Or.inl hq
    · obtain ⟨hnew, hold⟩ := (halters.gained_iff t).1 ht
      exact Or.inr ⟨slot.rule, t, ⟨hruns, held, hseen, hold, hnew⟩, hc⟩
  · rcases hnotes.lowered_from q hq with hq | ⟨t, ht, hc⟩
    · exact Or.inl hq
    · obtain ⟨hold, hnew⟩ := (halters.lost_iff t).1 ht
      exact Or.inr ⟨slot.rule, t, ⟨hruns, held, hseen, hold, hnew⟩, hc⟩
  · obtain ⟨s, hs, rfl, hcontains⟩ := hf
    by_cases heq : s.rule.id = slot.rule.id
    · obtain rfl : slot = s := by
        rw [heq, hget] at hs
        exact Option.some_inj.1 hs
      obtain ⟨qs, hqs⟩ := OrderedMap.contains_iff.1 hcontains
      have hold := ((hfires t qs).1 hqs).1
      by_cases hnew : slot.rule.condition.IsOutput e.evaluator (c.step held) t
      · refine Or.inl ⟨slot', OrderedMap.get?_insert_self _ _ _, hrule, ?_⟩
        refine OrderedMap.contains_iff.2 ⟨slot'.drawn e.evaluator e.graph t, ?_⟩
        exact (hfired t _).2 ⟨hnew, rfl⟩
      · refine Or.inr ⟨⟨hruns, held, hseen, hold, hnew⟩, fun q hc => ?_⟩
        exact hnotes.lowers t ((halters.lost_iff t).2 ⟨hold, hnew⟩) q hc
    · refine Or.inl ⟨s, ?_, rfl, hcontains⟩
      simp only
      rw [OrderedMap.get?_insert, if_neg (Ne.symm heq), hs]

private theorem injectInto_spec {todo : List String} (h : e.Tracks (between c seen (id :: todo)))
    (hnot : id ∉ todo) :
    ∃ failures e', RunState.injectInto c e id = .ok (failures, e') ∧ e.SameBut e' ∧
      (∀ id', e'.rule? id' = e.rule? id') ∧ e'.Tracks (between c seen todo) ∧
      e.Evolves e' (e.Appears c seen) (e.Vanishes c seen) := by
  unfold RunState.injectInto
  cases hget : e.slots.get? id with
  | none =>
      refine ⟨[], e, rfl, .refl e, fun _ => rfl, h.skip fun slot hs => ?_, .refl _ _ _⟩
      rw [hget] at hs
      cases hs
  | some slot =>
      cases hn : slot.network with
      | none =>
          refine ⟨[], e, by simp only [hn], .refl e, fun _ => rfl, h.skip fun slot' hs => ?_,
            .refl _ _ _⟩
          rw [hget] at hs
          obtain rfl := Option.some_inj.1 hs
          exact hn
      | some n =>
          obtain rfl := h.named id slot hget
          have hslot := h.slots _ slot hget
          rw [between, if_pos List.mem_cons_self] at hslot
          obtain ⟨held, p, n', failures, slot', support, hupdate, habsorb, hrule, hslot', hbalances,
            hseen, hfires, hfired, halters, hnotes⟩ :=
            hslot.tell hn (balances_of_accounts h.accounts hget rfl) c
          have hruns : e.Runs slot.rule := by
            refine ⟨hslot.active_iff.2 (by rw [hn]; rfl), ?_⟩
            rw [rule?, hget, Option.map_some]
          refine ⟨failures, { e with slots := e.slots.insert slot.rule.id slot', support }, ?_,
            ⟨rfl, rfl, rfl, rfl, rfl, rfl, rfl⟩, rule?_insert hget hrule,
            h.replace hget hnot hrule hslot' hbalances,
            evolves_of_notes hget hrule hruns hseen hfires hfired halters hnotes⟩
          simp only [hn, hupdate, Result.ok_bind, habsorb]
          rfl

private theorem appears_congr (hs : e.SameBut e') (hrule : ∀ id, e'.rule? id = e.rule? id) {r : Rule}
    {t : Token} : e'.Appears c seen r t ↔ e.Appears c seen r t := by
  unfold Appears Runs
  rw [hs.evaluator_eq, hrule]

private theorem vanishes_congr (hs : e.SameBut e') (hrule : ∀ id, e'.rule? id = e.rule? id)
    {r : Rule} {t : Token} : e'.Vanishes c seen r t ↔ e.Vanishes c seen r t := by
  unfold Vanishes Runs
  rw [hs.evaluator_eq, hrule]

private theorem runStage_injectInto {ids : List String} (hnodup : ids.Nodup)
    (h : e.Tracks (between c seen ids)) :
    ∃ failures e', runStage (RunState.injectInto c) e ids = .ok (failures, e') ∧ e.SameBut e' ∧
      (∀ id', e'.rule? id' = e.rule? id') ∧ e'.Tracks (between c seen []) ∧
      e.Evolves e' (e.Appears c seen) (e.Vanishes c seen) := by
  induction ids generalizing e with
  | nil => exact ⟨[], e, rfl, .refl e, fun _ => rfl, h, .refl _ _ _⟩
  | cons id rest ih =>
      obtain ⟨hnot, hrest⟩ := List.nodup_cons.1 hnodup
      obtain ⟨failures, e₁, h₁, hs₁, hr₁, ht₁, hev₁⟩ := injectInto_spec h hnot
      obtain ⟨more, e₂, h₂, hs₂, hr₂, ht₂, hev₂⟩ := ih hrest ht₁
      have happ : e₁.Appears c seen = e.Appears c seen := by
        funext r t
        exact propext (appears_congr hs₁ hr₁)
      have hvan : e₁.Vanishes c seen = e.Vanishes c seen := by
        funext r t
        exact propext (vanishes_congr hs₁ hr₁)
      rw [happ, hvan] at hev₂
      have hrun : runStage (RunState.injectInto c) e (id :: rest) = .ok (failures ++ more, e₂) :=
        runStage_cons h₁ h₂
      have hrule : ∀ id', e₂.rule? id' = e.rule? id' := by
        intro id'
        rw [hr₂ id', hr₁ id']
      exact ⟨failures ++ more, e₂, hrun, hs₁.trans hs₂, hrule, ht₂, .trans hs₁ hev₁ hev₂⟩

theorem Tracks.inject (h : e.Tracks seen) (c : Change Quad) :
    ∃ failures e', runStage (RunState.injectInto c) e e.slots.keys = .ok (failures, e') ∧
      e.SameBut e' ∧ (∀ id, e'.rule? id = e.rule? id) ∧
      e'.Tracks (fun id => stepped c (seen id)) ∧
      e.Evolves e' (e.Appears c seen) (e.Vanishes c seen) := by
  have hstart : e.Tracks (between c seen e.slots.keys) := by
    refine ⟨h.named, fun id slot hget => ?_, h.accounts⟩
    have hmem : id ∈ e.slots.keys :=
      OrderedMap.mem_keys_iff.2 (OrderedMap.contains_iff.2 ⟨slot, hget⟩)
    rw [between, if_pos hmem]
    exact h.slots id slot hget
  have hend : between c seen [] = fun id => stepped c (seen id) := by
    funext id
    rw [between, if_neg List.not_mem_nil]
  have hrun := runStage_injectInto e.slots.nodup_keys hstart
  rw [hend] at hrun
  exact hrun

theorem Tracks.of_inject {failures : List ConclusionFailure} (h : e.Tracks seen)
    (hrun : runStage (RunState.injectInto c) e e.slots.keys = .ok (failures, e')) :
    (∀ id, e'.rule? id = e.rule? id) ∧ e'.Tracks (fun id => stepped c (seen id)) ∧
      e.Evolves e' (e.Appears c seen) (e.Vanishes c seen) := by
  obtain ⟨_, _, hrun', _, hrule, htracks, hevolves⟩ := h.inject c
  obtain ⟨_, rfl⟩ := Result.pair_eq_of_eq_ok hrun' hrun
  exact ⟨hrule, htracks, hevolves⟩

/-! ## Waking a rule -/

private theorem Tracks.insert_idle (h : e.Tracks seen) (slot : RuleSlot)
    (hidle : ∀ old, e.slots.get? slot.rule.id = some old → old.firings = ∅)
    (hslot : slot.firings = ∅) :
    e.support.Accounts (slotCount (e.slots.insert slot.rule.id slot))
      (slotTotal (e.slots.insert slot.rule.id slot)) := by
  cases hget : e.slots.get? slot.rule.id with
  | none => exact accounts_of_new h.accounts hget hslot
  | some old =>
      refine accounts_of_cleared (h.accounts.congr (fun id' q => ?_) fun q => ?_) hslot
      · split
        · rename_i heq
          rw [slotCount, heq, hget]
          exact RuleSlot.count_of_idle (hidle old hget) q
        · rfl
      · rw [slotTotal, OrderedMap.sumOver_of_get? hget, RuleSlot.count_of_idle (hidle old hget),
          Nat.zero_add]
        rfl

private theorem fires_insert_other {slots : OrderedMap String RuleSlot} {support : Support}
    {r : Rule} {t : Token} (hslots : slots.get? r.id = e.slots.get? r.id) :
    ({ e with slots, support } : RuleEngine).Fires r t ↔ e.Fires r t := by
  unfold Fires
  simp only
  rw [hslots]

theorem Tracks.add_idle {r : Rule} (h : e.Tracks seen) (hnone : e.slots.get? r.id = none)
    (hvalid : r.problem? = none) (hactive : r.active = false) :
    ({ e with slots := e.slots.insert r.id (.new r) } : RuleEngine).Tracks seen where
  named := OrderedMap.forall_get?_insert rfl fun id slot _ => h.named id slot
  slots := OrderedMap.forall_get?_insert (.of_idle hvalid hactive rfl rfl)
    fun id slot _ => h.slots id slot
  accounts := by
    refine h.insert_idle (.new r) (fun old hold => ?_) rfl
    have hold' : e.slots.get? r.id = some old := hold
    rw [hnone] at hold'
    cases hold'

/-- A rule that is switched on fires for its outputs over the contents that its network takes in. The
network might as well have seen any other set that agrees with the contents on what it looks at. -/
theorem Tracks.wake {r : Rule} {n : Network} {contents : Contents} {held : Quad → Prop}
    (h : e.Tracks seen) (hidle : ∀ old, e.slots.get? r.id = some old → old.firings = ∅)
    (hvalid : r.problem? = none) (hactive : r.active = true)
    (hn : Network.compile r.condition = .ok n) (hindexed : contents.IsIndexed)
    (hseen : seen r.id held) (hread : ∀ q, r.condition.Reads q → (contents.Has q ↔ held q))
    (hdenied : ∀ q, r.condition.Denies q → (contents.Has q ↔ held q)) :
    ∃ p n' failures slot support, n.prime e.evaluator contents = .ok (p, n') ∧
      RuleSlot.absorb e.evaluator e.graph ⟨r, some n', ∅⟩ e.support p =
        .ok (failures, slot, support) ∧ slot.rule = r ∧
      ({ e with slots := (e.slots.insert r.id ⟨r, none, ∅⟩).insert r.id slot, support } :
        RuleEngine).Tracks seen ∧
      e.Evolves { e with slots := (e.slots.insert r.id ⟨r, none, ∅⟩).insert r.id slot, support }
        (fun r' t => r' = r ∧ r.condition.IsOutput e.evaluator contents.Has t)
        fun _ _ => False := by
  obtain ⟨p, n', hprime, hcond, htracks, halters⟩ :=
    Network.prime_spec e.evaluator hn hindexed
  have hfires : (⟨r, some n', ∅⟩ : RuleSlot).Fires e.evaluator e.graph fun _ => False :=
    fun t qs => iff_of_false nofun fun hx => hx.1
  have hacc := h.insert_idle ⟨r, none, ∅⟩ hidle rfl
  have hbal : (⟨r, none, ∅⟩ : RuleSlot).Balances e.support
      (slotCount (e.slots.insert r.id ⟨r, none, ∅⟩))
      (slotTotal ((e.slots.insert r.id ⟨r, none, ∅⟩).erase r.id)) :=
    balances_of_accounts hacc (OrderedMap.get?_insert_self _ _ _) rfl
  have hbal' : (⟨r, some n', ∅⟩ : RuleSlot).Balances e.support
      (slotCount (e.slots.insert r.id ⟨r, none, ∅⟩))
      (slotTotal ((e.slots.insert r.id ⟨r, none, ∅⟩).erase r.id)) := hbal
  obtain ⟨failures, slot, support, habsorb, hrule, hnetwork, hfired, hbalanced, hnotes⟩ :=
    RuleSlot.absorb_spec hfires hbal' halters
  have hrule' : slot.rule = r := hrule
  have hnotes' : RuleSlot.Notes e.evaluator e.graph r p.changes e.support support := hnotes
  have hlost : ∀ t, .lost t ∉ p.changes := fun t ht => ((halters.lost_iff t).1 ht).1
  have hget : ∀ id, ((e.slots.insert r.id ⟨r, none, ∅⟩).insert r.id slot).get? id =
      if r.id = id then some slot else e.slots.get? id := by
    intro id
    rw [OrderedMap.get?_insert, OrderedMap.get?_insert]
    split
    · rfl
    · rfl
  refine ⟨p, n', failures, slot, support, hprime, habsorb, hrule', ?_, ?_⟩
  · refine ⟨fun id s hs => ?_, fun id s hs => ?_, accounts_of_balances hbalanced (by rw [hrule'])⟩
    · rw [hget] at hs
      split at hs
      · rename_i heq
        rw [← Option.some_inj.1 hs, hrule', heq]
      · exact h.named id s hs
    · rw [hget] at hs
      split at hs
      · rename_i heq
        rw [← Option.some_inj.1 hs]
        subst hrule'
        have hsame : slot.rule.condition.IsOutput e.evaluator contents.Has =
            slot.rule.condition.IsOutput e.evaluator held := by
          funext t
          exact propext (Condition.isOutput_congr hread hdenied)
        have hfired' : slot.Fires e.evaluator e.graph
            (slot.rule.condition.IsOutput e.evaluator held) := by
          rw [← hsame]
          exact hfired
        rw [← hcond] at hread hdenied
        exact .of_network hvalid hactive hnetwork hcond (heq ▸ hseen)
          (htracks.of_agree hread hdenied) hfired'
      · exact h.slots id s hs
  · refine ⟨hnotes'.raised_mono, hnotes'.lowered_mono, fun q hq => ?_, fun q hq => ?_,
      hnotes'.raises, fun r' t hf => ?_⟩
    · rcases hnotes'.raised_from q hq with hq | ⟨t, ht, hc⟩
      · exact Or.inl hq
      · obtain ⟨hout, _⟩ := (halters.gained_iff t).1 ht
        exact Or.inr ⟨r, t, ⟨rfl, hout⟩, hc⟩
    · rcases hnotes'.lowered_from q hq with hq | ⟨t, ht, _⟩
      · exact Or.inl hq
      · exact absurd ht (hlost t)
    · by_cases heq : r.id = r'.id
      · obtain ⟨s, hs, _, hcontains⟩ := hf
        rw [← heq] at hs
        rw [hidle s hs] at hcontains
        cases hcontains
      · refine Or.inl ((fires_insert_other ?_).2 hf)
        rw [hget, if_neg heq]

/-! ## Putting a rule to rest -/

/-- A rule that is put to rest gives up its matches; it is then dropped, or kept switched off. -/
theorem Tracks.rest {slot : RuleSlot} {r : Rule} (h : e.Tracks seen)
    (hget : e.slots.get? r.id = some slot) (hrule : slot.rule = r) :
    ∃ support, slot.clear e.support = .ok ({ slot with firings := ∅ }, support) ∧
      ({ e with slots := e.slots.erase r.id, support } : RuleEngine).Tracks seen ∧
      e.Evolves { e with slots := e.slots.erase r.id, support } (fun _ _ => False)
        (fun r' _ => r' = r) ∧
      ({ e with slots := e.slots.insert r.id ⟨{ r with active := false }, none, ∅⟩, support } :
        RuleEngine).Tracks seen ∧
      e.Evolves
        { e with slots := e.slots.insert r.id ⟨{ r with active := false }, none, ∅⟩, support }
        (fun _ _ => False) (fun r' _ => r' = r) := by
  subst hrule
  have hslot := h.slots _ slot hget
  obtain ⟨out, hfires⟩ := hslot.exists_fires
  obtain ⟨support, hclear, hacc, hnotes⟩ :=
    RuleSlot.clear_spec hfires (balances_of_accounts h.accounts hget rfl)
  have hevolves : ∀ slots : OrderedMap String RuleSlot,
      (∀ id, id ≠ slot.rule.id → slots.get? id = e.slots.get? id) →
      e.Evolves { e with slots, support } (fun _ _ => False) (fun r' _ => r' = slot.rule) := by
    intro slots hslots
    refine ⟨hnotes.raised_mono, hnotes.lowered_mono, fun q hq => ?_, fun q hq => ?_,
      hnotes.raises, fun r t hf => ?_⟩
    · rcases hnotes.raised_from q hq with hq | ⟨t, ht, _⟩
      · exact Or.inl hq
      · obtain ⟨_, _, heq⟩ := List.mem_map.1 ht
        cases heq
    · rcases hnotes.lowered_from q hq with hq | ⟨t, _, hc⟩
      · exact Or.inl hq
      · exact Or.inr ⟨slot.rule, t, rfl, hc⟩
    · by_cases heq : r.id = slot.rule.id
      · obtain ⟨s, hs, rfl, hcontains⟩ := hf
        rw [heq, hget] at hs
        obtain rfl := Option.some_inj.1 hs
        refine Or.inr ⟨rfl, fun q hc => hnotes.lowers t ?_ q hc⟩
        exact List.mem_map.2 ⟨t, OrderedMap.mem_keys_iff.2 hcontains, rfl⟩
      · exact Or.inl ((fires_insert_other (hslots r.id heq)).2 hf)
  have hdropped : ({ e with slots := e.slots.erase slot.rule.id, support } : RuleEngine).Tracks seen :=
    ⟨OrderedMap.forall_get?_erase h.named, OrderedMap.forall_get?_erase h.slots,
      accounts_of_erased hacc⟩
  have hswitched : Tracks
      { e with
        slots := e.slots.insert slot.rule.id ⟨{ slot.rule with active := false }, none, ∅⟩
        support } seen :=
    ⟨OrderedMap.forall_get?_insert rfl fun id s _ => h.named id s,
      OrderedMap.forall_get?_insert (.of_idle hslot.valid rfl rfl rfl) fun id s _ => h.slots id s,
      accounts_of_cleared hacc rfl⟩
  refine ⟨support, hclear, hdropped, hevolves _ fun id hne => ?_, hswitched,
    hevolves _ fun id hne => ?_⟩
  · rw [OrderedMap.get?_erase, if_neg (Ne.symm hne)]
  · rw [OrderedMap.get?_insert, if_neg (Ne.symm hne)]

end RuleEngine

end Entail
