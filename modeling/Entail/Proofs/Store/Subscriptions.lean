import Entail.Proofs.Store.Sessions
import Mathlib.Data.List.Induction
/-!
# Subscriptions

What a subscription was told, drained or still waiting, is the history of the store since it was
opened: replayed on the contents of that moment it makes a difference at every step and leads to the
present contents. Nothing that is done with other subscriptions shows in it.
-/

namespace Entail.Store.Session

variable {s s' : Session} {a : Action} {actions before after : List Action} {id other : Nat}
  {c : Contents} {asked : List (Change Quad)}

/-- Whether the subscription is open. -/
def IsOpen (s : Session) (id : Nat) : Prop :=
  s.store.feed.buffers.contains id = true

instance : Decidable (s.IsOpen id) :=
  inferInstanceAs (Decidable (_ = true))

/-- Everything the subscription was told, drained or still waiting. -/
def told (s : Session) (id : Nat) : List (Change Quad) :=
  s.drainedFrom id ++ s.store.feed.waiting id

/-- The subscription is open, and since the contents were `c` it was told of the changes that made a
difference, among those asked for, and of nothing else. -/
structure Recounts (s : Session) (id : Nat) (c : Contents) (asked : List (Change Quad)) : Prop where
  isOpen : s.IsOpen id
  told_eq : s.told id = c.effects asked
  effective : c.AllEffective (s.told id)
  replay_eq : c.replay (s.told id) = s.store.contents

/-- The sessions look the same from the subscription. -/
structure SameFor (id : Nat) (s s' : Session) : Prop where
  buffer_eq : s'.store.feed.buffers.get? id = s.store.feed.buffers.get? id
  drained_eq : s'.drainedFrom id = s.drainedFrom id
  contents_eq : s'.store.contents = s.store.contents

theorem SameFor.isOpen_iff (h : SameFor id s s') : s'.IsOpen id ↔ s.IsOpen id := by
  rw [IsOpen, IsOpen, OrderedMap.contains, OrderedMap.contains, h.buffer_eq]

theorem SameFor.told_eq (h : SameFor id s s') : s'.told id = s.told id := by
  rw [told, told, ChangeFeed.waiting, ChangeFeed.waiting, h.drained_eq, h.buffer_eq]

/-! ## Numbers -/

/-- Subscriptions are numbered in the order in which they are opened, and before it is opened one is
told nothing. -/
structure IsNumbered (s : Session) : Prop where
  opened_eq : s.opened = List.range s.store.feed.nextId
  lt_nextId : ∀ id, s.IsOpen id → id < s.store.feed.nextId
  drainedFrom_eq : ∀ id, s.store.feed.nextId ≤ id → s.drainedFrom id = []

theorem isNumbered_start : start.IsNumbered where
  opened_eq := rfl
  lt_nextId _ := nofun
  drainedFrom_eq _ _ := rfl

private theorem feed_mutate (m : Mutation) (σ : Store) :
    (m.carryOut σ).feed.nextId = σ.feed.nextId ∧
      ∀ id, (m.carryOut σ).feed.buffers.contains id = σ.feed.buffers.contains id := by
  have hstep : ∀ (σ' : Store) (change : Change Quad), True → change.IsFresh σ'.contents.Has →
      (σ'.feed.nextId = σ.feed.nextId ∧
        ∀ id, σ'.feed.buffers.contains id = σ.feed.buffers.contains id) →
      (σ'.take change).feed.nextId = σ.feed.nextId ∧
        ∀ id, (σ'.take change).feed.buffers.contains id = σ.feed.buffers.contains id := by
    rintro σ' change - - ⟨hnext, hopen⟩
    exact ⟨hnext, fun id => (ChangeFeed.contains_publish change).trans (hopen id)⟩
  exact m.carryOut_induction (fun _ _ => trivial) hstep ⟨rfl, fun _ => rfl⟩

private theorem sameFor_subscribe (h : id ≠ s.store.subscribe.1) :
    SameFor id s (s.carryOut .subscribe) :=
  ⟨ChangeFeed.get?_subscribe_of_ne h, rfl, rfl⟩

private theorem sameFor_unsubscribe (h : id ≠ other) :
    SameFor id s (s.carryOut (.unsubscribe other)) :=
  ⟨ChangeFeed.get?_unsubscribe_of_ne h, rfl, rfl⟩

private theorem drainedFrom_drain (s : Session) (id other : Nat) :
    (s.carryOut (.drain other)).drainedFrom id =
      s.drainedFrom id ++ if other = id then s.store.feed.waiting other else [] := by
  change (s.drained ++ [(other, s.store.feed.waiting other)]).flatMap _ = _
  rw [List.flatMap_append, List.flatMap_singleton]
  rfl

private theorem sameFor_drain (h : id ≠ other) : SameFor id s (s.carryOut (.drain other)) := by
  refine ⟨ChangeFeed.get?_drain_of_ne h, ?_, rfl⟩
  rw [drainedFrom_drain, if_neg h.symm, List.append_nil]

private theorem isOpen_of_carryOut (h : (s.carryOut a).IsOpen id) :
    a ≠ .unsubscribe id ∧ (s.IsOpen id ∨ a = .subscribe ∧ id = s.store.subscribe.1) := by
  cases a with
  | mutate m => exact ⟨nofun, Or.inl (((feed_mutate m s.store).2 id).symm.trans h)⟩
  | subscribe =>
      refine ⟨nofun, ?_⟩
      by_cases hid : id = s.store.subscribe.1
      · exact Or.inr ⟨rfl, hid⟩
      · exact Or.inl ((sameFor_subscribe hid).isOpen_iff.1 h)
  | unsubscribe other =>
      by_cases hid : id = other
      · subst hid
        exact absurd h (ChangeFeed.not_contains_unsubscribe s.store.feed id)
      · exact ⟨fun heq => hid (Action.unsubscribe.inj heq).symm,
          Or.inl ((sameFor_unsubscribe hid).isOpen_iff.1 h)⟩
  | drain other =>
      refine ⟨nofun, Or.inl ?_⟩
      by_cases hid : id = other
      · subst hid
        by_contra hclosed
        have hsame : (s.store.feed.drain id).2 = s.store.feed := if_neg hclosed
        have hopen : (s.store.feed.drain id).2.buffers.contains id = true := h
        rw [hsame] at hopen
        exact hclosed hopen
      · exact (sameFor_drain hid).isOpen_iff.1 h
  | keep => exact ⟨nofun, Or.inl h⟩

private theorem waiting_of_not_isOpen (h : ¬ s.IsOpen id) : s.store.feed.waiting id = [] := by
  rw [ChangeFeed.waiting, Option.not_isSome_iff_eq_none.1 h]
  rfl

theorem IsNumbered.carryOut (h : s.IsNumbered) (a : Action) : (s.carryOut a).IsNumbered := by
  have hlt : ∀ {next}, s.store.feed.nextId ≤ next → a ≠ .subscribe →
      ∀ id, (s.carryOut a).IsOpen id → id < next := by
    intro next hle ha id hid
    rcases (isOpen_of_carryOut hid).2 with hid | ⟨hsub, -⟩
    · exact Nat.lt_of_lt_of_le (h.lt_nextId id hid) hle
    · exact absurd hsub ha
  cases a with
  | mutate m =>
      have hnext : ((s.carryOut (.mutate m)).store.feed).nextId = s.store.feed.nextId :=
        (feed_mutate m s.store).1
      refine ⟨hnext ▸ h.opened_eq, hlt (Nat.le_of_eq hnext.symm) (by simp), fun id hid => ?_⟩
      exact h.drainedFrom_eq id (hnext ▸ hid)
  | subscribe =>
      refine ⟨?_, fun id hid => ?_, fun id hid => h.drainedFrom_eq id (Nat.le_of_succ_le hid)⟩
      · change s.opened ++ [s.store.feed.nextId] = List.range (s.store.feed.nextId + 1)
        rw [h.opened_eq, List.range_succ]
      · change id < s.store.feed.nextId + 1
        rcases (isOpen_of_carryOut hid).2 with hid | ⟨-, rfl⟩
        · exact Nat.lt_succ_of_lt (h.lt_nextId id hid)
        · exact Nat.lt_succ_self _
  | unsubscribe other => exact ⟨h.opened_eq, hlt (Nat.le_refl _) (by simp), h.drainedFrom_eq⟩
  | drain other =>
      have hnext : ((s.carryOut (.drain other)).store.feed).nextId = s.store.feed.nextId := by
        change (s.store.feed.drain other).2.nextId = _
        rw [ChangeFeed.drain]
        split
        · rfl
        · rfl
      refine ⟨hnext ▸ h.opened_eq, hlt (Nat.le_of_eq hnext.symm) (by simp), fun id hid => ?_⟩
      rw [hnext] at hid
      rw [drainedFrom_drain, h.drainedFrom_eq id hid]
      split
      · rename_i heq
        rw [heq]
        exact waiting_of_not_isOpen fun hopen => Nat.not_lt.2 hid (h.lt_nextId id hopen)
      · rfl
  | keep => exact ⟨h.opened_eq, hlt (Nat.le_refl _) (by simp), h.drainedFrom_eq⟩

theorem IsNumbered.run (h : s.IsNumbered) (actions : List Action) : (s.run actions).IsNumbered := by
  induction actions generalizing s with
  | nil => exact h
  | cons a rest ih => exact ih (h.carryOut a)

/-! ## What is told -/

private theorem told_carryOut (hnum : s.IsNumbered) (hopen : s.IsOpen id)
    (ha : a ≠ .unsubscribe id) : (s.carryOut a).IsOpen id ∧
      (s.carryOut a).told id = s.told id ++ s.store.contents.effects a.asked := by
  have hsame : ∀ {s'}, SameFor id s s' → s'.IsOpen id ∧ s'.told id = s.told id ++ [] :=
    fun h => ⟨h.isOpen_iff.2 hopen, h.told_eq.trans (List.append_nil _).symm⟩
  cases a with
  | mutate m =>
      have hannounces := m.announces_effects (fun _ => True) s.store
      obtain ⟨hopen', hwaiting⟩ := hannounces.waiting id trivial hopen
      refine ⟨hopen', ?_⟩
      change s.drainedFrom id ++ (m.carryOut s.store).feed.waiting id = _
      rw [hwaiting, ← List.append_assoc]
      rfl
  | subscribe => exact hsame (sameFor_subscribe (Nat.ne_of_lt (hnum.lt_nextId id hopen)))
  | unsubscribe other => exact hsame (sameFor_unsubscribe fun heq => ha (heq ▸ rfl))
  | drain other =>
      by_cases hid : id = other
      · subst hid
        refine ⟨ChangeFeed.contains_drain hopen, ?_⟩
        have hempty : (s.carryOut (.drain id)).store.feed.waiting id = [] :=
          ChangeFeed.waiting_drain _ _
        rw [told, hempty, drainedFrom_drain, if_pos rfl, List.append_nil]
        exact (List.append_nil _).symm
      · exact hsame (sameFor_drain hid)
  | keep => exact hsame ⟨rfl, rfl, rfl⟩

theorem Recounts.carryOut (h : s.Recounts id c asked) (hnum : s.IsNumbered)
    (ha : a ≠ .unsubscribe id) : (s.carryOut a).Recounts id c (asked ++ a.asked) := by
  obtain ⟨hopen, htold⟩ := told_carryOut hnum h.isOpen ha
  have hcontents : s.store.contents = c.replay (c.effects asked) := h.told_eq ▸ h.replay_eq.symm
  have heffects : (s.carryOut a).told id = c.effects (asked ++ a.asked) := by
    rw [htold, h.told_eq, Contents.effects_append, ← hcontents]
  refine ⟨hopen, heffects, heffects ▸ c.allEffective_effects _, ?_⟩
  rw [htold, Contents.replay_append, h.replay_eq, contents_carryOut]

theorem Recounts.run (h : s.Recounts id c asked) (hnum : s.IsNumbered)
    (hafter : .unsubscribe id ∉ after) :
    (s.run after).Recounts id c (asked ++ after.flatMap Action.asked) := by
  induction after generalizing s asked with
  | nil =>
      rw [List.flatMap_nil, List.append_nil]
      exact h
  | cons a rest ih =>
      obtain ⟨ha, hrest⟩ := not_or.1 (mt List.mem_cons.2 hafter)
      rw [List.flatMap_cons, ← List.append_assoc]
      exact ih (h.carryOut hnum (Ne.symm ha)) (hnum.carryOut a) hrest

theorem recounts_subscribe (hnum : s.IsNumbered) :
    (s.carryOut .subscribe).Recounts s.store.subscribe.1 s.store.contents [] := by
  have htold : (s.carryOut .subscribe).told s.store.subscribe.1 = [] := by
    have hdrained : (s.carryOut .subscribe).drainedFrom s.store.subscribe.1 = [] :=
      hnum.drainedFrom_eq s.store.feed.nextId (Nat.le_refl _)
    have hwaiting : (s.carryOut .subscribe).store.feed.waiting s.store.subscribe.1 = [] :=
      ChangeFeed.waiting_subscribe s.store.feed
    rw [told, hdrained, hwaiting, List.append_nil]
  refine ⟨ChangeFeed.contains_subscribe s.store.feed, htold, ?_, ?_⟩
  · rw [htold]
    trivial
  · rw [htold]
    rfl

/-- The subscription was opened after the actions of `before`, and in `after`, what came next, it was
not closed. -/
structure IsSince (actions : List Action) (id : Nat) (before after : List Action) : Prop where
  actions_eq : actions = before ++ .subscribe :: after
  id_eq : (start.run before).store.subscribe.1 = id
  not_closed : .unsubscribe id ∉ after

private theorem exists_isSince (h : (start.run actions).IsOpen id) :
    ∃ before after, IsSince actions id before after := by
  induction actions using List.reverseRecOn with
  | nil => cases h
  | append_singleton actions a ih =>
      rw [run_append] at h
      obtain ⟨ha, hopen | ⟨rfl, rfl⟩⟩ := isOpen_of_carryOut h
      · obtain ⟨before, after, rfl, hid, hafter⟩ := ih hopen
        refine ⟨before, after ++ [a], List.append_assoc _ _ _, hid, ?_⟩
        rw [List.mem_append, List.mem_singleton]
        exact not_or.2 ⟨hafter, Ne.symm ha⟩
      · exact ⟨actions, [], rfl, rfl, List.not_mem_nil⟩

private theorem IsSince.recounts (h : IsSince actions id before after) :
    (start.run actions).Recounts id (start.run before).store.contents
      (after.flatMap Action.asked) := by
  obtain ⟨rfl, rfl, hafter⟩ := h
  have hnum : (start.run before).IsNumbered := isNumbered_start.run before
  rw [run_append]
  exact (recounts_subscribe hnum).run (hnum.carryOut .subscribe) hafter

/-- No number is given to two subscriptions; the open ones are those that were opened and not closed
since; what an open one was told is the history of the store since it was opened; and to drain or to
close one is nothing to the others. -/
theorem subscriptions_recount_history (actions : List Action) :
    let s := start.run actions
    s.opened.Nodup ∧
      (∀ id, s.IsOpen id ↔ ∃ before after, IsSince actions id before after) ∧
      (∀ id before after, IsSince actions id before after →
        s.Recounts id (start.run before).store.contents (after.flatMap Action.asked)) ∧
      ∀ id other, id ≠ other →
        SameFor id s (s.carryOut (.drain other)) ∧ SameFor id s (s.carryOut (.unsubscribe other)) := by
  intro s
  have hnum : s.IsNumbered := isNumbered_start.run actions
  refine ⟨hnum.opened_eq ▸ List.nodup_range, fun id => ⟨exists_isSince, ?_⟩,
    fun id before after hsince => hsince.recounts,
    fun id other hid => ⟨sameFor_drain hid, sameFor_unsubscribe hid⟩⟩
  rintro ⟨before, after, hsince⟩
  exact hsince.recounts.isOpen

/-- A second subscriber comes and goes; one quad is stored twice, and then is part of a changeset
on both sides. -/
theorem subscription_recounts_replaced :
    let q := Quad.mk (.iri "g") (.iri "a") (.iri "is") (.iri "seen")
    let after := [Action.mutate (.insert q), .subscribe, .drain 0, .mutate (.insert q), .drain 1,
      .mutate (.apply ⟨[q], [q]⟩), .unsubscribe 1]
    let s := start.run (.subscribe :: after)
    s.Recounts 0 .empty (after.flatMap Action.asked) ∧
      s.told 0 = [.gained q, .lost q, .gained q] ∧ s.opened = [0, 1] ∧ ¬ s.IsOpen 1 := by
  intro q after s
  obtain ⟨-, -, hrecounts, -⟩ := subscriptions_recount_history (.subscribe :: after)
  have hsince : IsSince (.subscribe :: after) 0 [] after := ⟨rfl, rfl, by simp [after]⟩
  exact ⟨hrecounts 0 [] after hsince, by decide +kernel⟩

end Entail.Store.Session
