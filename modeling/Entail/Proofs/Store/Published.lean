import Entail.Proofs.Store.Feed
/-!
# Published changes

Stores that come from one another by changes each of which makes a difference: changes of one sort, or
a given list of them, of which subscriptions are told.
-/

namespace Entail

/-! ## Effective changes -/

namespace Contents

variable {c : Contents} {changes more : List (Change Quad)} {gain : Bool}

theorem replay_append : c.replay (changes ++ more) = (c.replay changes).replay more :=
  List.foldl_append

theorem AllEffective.append (h : c.AllEffective changes)
    (hmore : (c.replay changes).AllEffective more) : c.AllEffective (changes ++ more) := by
  induction changes generalizing c with
  | nil => exact hmore
  | cons change rest ih => exact ⟨h.1, ih h.2 hmore⟩

theorem AllEffective.of_append (h : c.AllEffective (changes ++ more)) :
    c.AllEffective changes ∧ (c.replay changes).AllEffective more := by
  induction changes generalizing c with
  | nil => exact ⟨trivial, h⟩
  | cons change rest ih =>
      obtain ⟨hrest, hmore⟩ := ih h.2
      exact ⟨⟨h.1, hrest⟩, hmore⟩

private theorem contains_apply_value (c : Contents) (change : Change Quad) :
    (c.apply change).contains change.value = change.isGain := by
  rw [Bool.eq_iff_iff, contains_apply, Change.step_value_iff]

theorem AllEffective.contains_eq (h : c.AllEffective changes)
    (hside : ∀ x ∈ changes, x.isGain = gain) : ∀ x ∈ changes, c.contains x.value = !gain := by
  induction changes generalizing c with
  | nil => exact fun x hx => absurd hx List.not_mem_nil
  | cons change rest ih =>
      obtain ⟨hfirst, hrest⟩ := h
      obtain ⟨hgain, hside⟩ := List.forall_mem_cons.1 hside
      refine List.forall_mem_cons.2 ⟨by rw [hfirst, hgain], fun x hx => ?_⟩
      have hlater := ih hrest hside x hx
      by_cases heq : x.value = change.value
      · rw [heq, contains_apply_value, hgain] at hlater
        exact ((Bool.eq_not_self gain).1 hlater).elim
      · rw [← hlater, Bool.eq_iff_iff, contains_apply]
        have hother : change.step (fun y => c.contains y = true) x.value ↔
            c.contains x.value = true := Change.step_iff_of_ne heq
        exact hother.symm

theorem AllEffective.nodup_values (h : c.AllEffective changes)
    (hside : ∀ x ∈ changes, x.isGain = gain) : (changes.map Change.value).Nodup := by
  induction changes generalizing c with
  | nil => exact List.nodup_nil
  | cons change rest ih =>
      obtain ⟨hgain, hside⟩ := List.forall_mem_cons.1 hside
      refine List.nodup_cons.2 ⟨fun hmem => ?_, ih h.2 hside⟩
      obtain ⟨x, hx, heq⟩ := List.mem_map.1 hmem
      have hlater := h.2.contains_eq hside x hx
      rw [heq, contains_apply_value, hgain] at hlater
      exact (Bool.eq_not_self gain).1 hlater

private theorem size_eq_sumOver (c : Contents) : c.size = c.quads.toMap.sumOver fun _ _ => 1 := by
  rw [size, OrderedSet.size, OrderedMap.size, OrderedMap.sumOver, List.map_const',
    List.sum_replicate_nat, Nat.mul_one]

theorem size_apply {change : Change Quad} (h : c.contains change.value = !change.isGain) :
    (c.apply change).size + (!change.isGain).toNat = c.size + change.isGain.toNat := by
  cases change with
  | gained q =>
      have hnone : c.quads.toMap.get? q = none :=
        Option.not_isSome_iff_eq_none.1 (Bool.eq_false_iff.1 h)
      have hinsert := OrderedMap.sumOver_insert c.quads.toMap q () fun _ _ => 1
      rw [OrderedMap.erase_of_get?_none hnone] at hinsert
      rw [size_eq_sumOver, size_eq_sumOver c]
      calc (c.quads.toMap.insert q ()).sumOver (fun _ _ => 1) + 0
          = 1 + c.quads.toMap.sumOver fun _ _ => 1 := hinsert
        _ = (c.quads.toMap.sumOver fun _ _ => 1) + 1 := Nat.add_comm _ _
  | lost q =>
      obtain ⟨u, hsome⟩ := OrderedMap.contains_iff.1 (show c.quads.toMap.contains q = true from h)
      have herase := OrderedMap.sumOver_of_get? (f := fun _ _ => 1) hsome
      rw [size_eq_sumOver, size_eq_sumOver c]
      calc (c.quads.toMap.erase q).sumOver (fun _ _ => 1) + 1
          = 1 + (c.quads.toMap.erase q).sumOver fun _ _ => 1 := Nat.add_comm _ _
        _ = (c.quads.toMap.sumOver fun _ _ => 1) + 0 := herase.symm

theorem AllEffective.size_replay (h : c.AllEffective changes) :
    (c.replay changes).size + changes.countP (fun x => !x.isGain) =
      c.size + changes.countP Change.isGain := by
  induction changes generalizing c with
  | nil => rfl
  | cons change rest ih =>
      have hfirst := size_apply h.1
      have hrest := ih h.2
      rw [replay, List.foldl_cons, ← replay]
      cases change with
      | gained q =>
          rw [List.countP_cons_of_neg Bool.false_ne_true, List.countP_cons_of_pos rfl]
          simp only [Change.isGain, Bool.not_true, Bool.toNat_false, Bool.toNat_true] at hfirst
          omega
      | lost q =>
          rw [List.countP_cons_of_pos rfl, List.countP_cons_of_neg Bool.false_ne_true]
          simp only [Change.isGain, Bool.not_false, Bool.toNat_false, Bool.toNat_true] at hfirst
          omega

theorem not_has_replay {q : Quad} (hside : ∀ x ∈ changes, x.isGain = false)
    (hq : .lost q ∈ changes) : ¬ (c.replay changes).Has q := by
  rw [has_replay]
  rcases Change.stepAll_cases changes q with ⟨hgained, _⟩ | ⟨_, hall⟩ | ⟨_, hnot, _⟩
  · cases hside _ hgained
  · exact hall _
  · exact absurd hq hnot

theorem AllEffective.nodup_of_losses_gains {losses gains : List Quad}
    (h : c.AllEffective (losses.map .lost ++ gains.map .gained)) : losses.Nodup ∧ gains.Nodup := by
  obtain ⟨hlost, hgained⟩ := h.of_append
  have hlosses : ∀ x ∈ losses.map Change.lost, x.isGain = false := by
    intro x hx
    obtain ⟨q, _, rfl⟩ := List.mem_map.1 hx
    rfl
  have hgains : ∀ x ∈ gains.map Change.gained, x.isGain = true := by
    intro x hx
    obtain ⟨q, _, rfl⟩ := List.mem_map.1 hx
    rfl
  have hnodup := hlost.nodup_values hlosses
  have hnodup' := hgained.nodup_values hgains
  rw [List.map_map] at hnodup hnodup'
  exact ⟨hnodup.of_map _, hnodup'.of_map _⟩

theorem gained_of_has_replay {losses : List Quad} {q : Quad} (hq : q ∈ losses)
    (h : (c.replay (losses.map .lost ++ more)).Has q) : .gained q ∈ more := by
  rw [replay_append, has_replay] at h
  refine Change.gained_mem_of_stepAll (not_has_replay (fun x hx => ?_) (List.mem_map_of_mem hq)) h
  obtain ⟨x, _, rfl⟩ := List.mem_map.1 hx
  rfl

end Contents

/-- `σ'` comes from `σ` by the changes, each of which makes a difference, and the subscriptions to be
told are told of them. -/
structure Store.Announces (σ : Store) (told : Nat → Prop) (changes : List (Change Quad))
    (σ' : Store) : Prop where
  contents_eq : σ'.contents = σ.contents.replay changes
  effective : σ.contents.AllEffective changes
  waiting : ∀ id, told id → σ.feed.buffers.contains id = true →
    σ'.feed.buffers.contains id = true ∧ σ'.feed.waiting id = σ.feed.waiting id ++ changes

namespace Store.Announces

variable {told told' : Nat → Prop} {changes more : List (Change Quad)} {σ σ' σ'' : Store}

theorem refl (told : Nat → Prop) (σ : Store) : σ.Announces told [] σ :=
  ⟨rfl, trivial, fun _ _ hid => ⟨hid, (List.append_nil _).symm⟩⟩

theorem trans (h : σ.Announces told changes σ') (h' : σ'.Announces told more σ'') :
    σ.Announces told (changes ++ more) σ'' where
  contents_eq := by
    rw [h'.contents_eq, h.contents_eq, Contents.replay_append]
  effective := h.effective.append (h.contents_eq ▸ h'.effective)
  waiting id hid hopen := by
    obtain ⟨hopen', hwaiting⟩ := h.waiting id hid hopen
    obtain ⟨hopen'', hwaiting'⟩ := h'.waiting id hid hopen'
    exact ⟨hopen'', by rw [hwaiting', hwaiting, List.append_assoc]⟩

theorem mono (h : σ.Announces told changes σ') (hle : ∀ id, told' id → told id) :
    σ.Announces told' changes σ' :=
  ⟨h.contents_eq, h.effective, fun id hid => h.waiting id (hle id hid)⟩

theorem take {c : Change Quad} (h : c.IsFresh σ.contents.Has) :
    σ.Announces told [c] (σ.take c) where
  contents_eq := rfl
  effective := by
    refine ⟨?_, trivial⟩
    cases c with
    | gained q => exact Bool.eq_false_iff.2 h
    | lost q => exact h
  waiting id _ hopen := by
    rw [Store.take, ChangeFeed.contains_publish]
    exact ⟨hopen, ChangeFeed.waiting_publish hopen c⟩

theorem drain (σ : Store) (own : Nat) : σ.Announces (· ≠ own) [] (σ.drain own).2 where
  contents_eq := rfl
  effective := trivial
  waiting id hid hopen := by
    rw [List.append_nil]
    exact ChangeFeed.drain_of_ne hid hopen

theorem not_lost (h : σ.Announces told changes σ') {q : Quad}
    (hside : ∀ x ∈ changes, x.isGain = false) (hq : σ'.contents.Has q) : .lost q ∉ changes := by
  rw [h.contents_eq] at hq
  exact fun hmem => Contents.not_has_replay hside hmem hq

end Store.Announces

/-! ## Changes of one sort -/

/-- `σ'` comes from `σ` by changes that are allowed. -/
inductive Publishes (allowed : Change Quad → Prop) : Store → Store → Prop where
  | refl (σ : Store) : Publishes allowed σ σ
  | take {σ σ' : Store} {c : Change Quad} : Publishes allowed σ σ' → allowed c →
    c.IsFresh σ'.contents.Has → Publishes allowed σ (σ'.take c)

namespace Publishes

variable {allowed allowed' : Change Quad → Prop} {σ σ' σ'' : Store} {q : Quad}

theorem trans (h : Publishes allowed σ σ') (h' : Publishes allowed σ' σ'') :
    Publishes allowed σ σ'' := by
  induction h' with
  | refl => exact h
  | take _ hc hfresh ih => exact .take ih hc hfresh

theorem mono (h : Publishes allowed σ σ') (hle : ∀ c, allowed c → allowed' c) :
    Publishes allowed' σ σ' := by
  induction h with
  | refl => exact .refl _
  | take _ hc hfresh ih => exact .take ih (hle _ hc) hfresh

theorem eq_of_none (h : Publishes allowed σ σ') (hnone : ∀ c, ¬ allowed c) : σ' = σ := by
  cases h with
  | refl => rfl
  | take _ hc _ => exact absurd hc (hnone _)

theorem announces (h : Publishes allowed σ σ') :
    ∃ changes, (∀ c ∈ changes, allowed c) ∧ σ.Announces (fun _ => True) changes σ' := by
  induction h with
  | refl => exact ⟨[], fun c hc => absurd hc List.not_mem_nil, .refl _ _⟩
  | @take σ' c _ hc hfresh ih =>
      obtain ⟨changes, hall, hannounces⟩ := ih
      refine ⟨changes ++ [c], fun x hx => ?_, hannounces.trans (.take hfresh)⟩
      rcases List.mem_append.1 hx with hx | hx
      · exact hall x hx
      · exact List.mem_singleton.1 hx ▸ hc

theorem shrinks (h : Publishes allowed σ σ') (hgain : ∀ x, ¬ allowed (.gained x)) :
    (∀ x, σ'.contents.Has x → σ.contents.Has x) ∧
      (σ' = σ ∨ ∃ x, σ.contents.Has x ∧ ¬ σ'.contents.Has x) := by
  induction h with
  | refl => exact ⟨fun _ => id, Or.inl rfl⟩
  | @take σ' c _ hc hfresh ih =>
      cases c with
      | gained x => exact absurd hc (hgain x)
      | lost x =>
          obtain ⟨hsub, _⟩ := ih
          have hhas : σ'.contents.Has x := hfresh
          constructor
          · intro y hy
            rw [Store.has_take] at hy
            exact hsub y hy.1
          · refine Or.inr ⟨x, hsub x hhas, fun hx => ?_⟩
            rw [Store.has_take] at hx
            exact hx.2 rfl

theorem grows (h : Publishes allowed σ σ') (hlost : ∀ x, ¬ allowed (.lost x)) :
    (∀ x, σ.contents.Has x → σ'.contents.Has x) ∧
      (∀ x, σ'.contents.Has x → σ.contents.Has x ∨ allowed (.gained x)) ∧
      (σ' = σ ∨ ∃ x, ¬ σ.contents.Has x ∧ σ'.contents.Has x) := by
  induction h with
  | refl => exact ⟨fun _ => id, fun _ => Or.inl, Or.inl rfl⟩
  | @take σ' c _ hc hfresh ih =>
      cases c with
      | lost x => exact absurd hc (hlost x)
      | gained x =>
          obtain ⟨hsub, hfrom, _⟩ := ih
          have hnot : ¬ σ'.contents.Has x := hfresh
          rw [Store.has_take]
          refine ⟨fun y hy => Or.inl (hsub y hy), fun y hy => ?_, Or.inr ⟨x, fun hx => ?_, ?_⟩⟩
          · rcases hy with hy | rfl
            · exact hfrom y hy
            · exact Or.inr hc
          · exact hnot (hsub x hx)
          · exact Or.inr rfl

end Publishes

end Entail
