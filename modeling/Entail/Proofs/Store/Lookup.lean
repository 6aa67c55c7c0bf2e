import Entail.Proofs.Store.Sessions
import Mathlib.Data.Set.Card
/-!
# Look-ups

Whatever was done with a store, a look-up by filter finds what a scan of all stored quads finds, and
so do look-ups in contents that were kept aside, for the moment at which they were kept.
-/

namespace Entail

namespace Contents

variable {c : Contents} {held : Quad → Prop} {change : Change Quad} {changes : List (Change Quad)}

/-- No index keeps an empty bucket. -/
def IsTidy (c : Contents) : Prop :=
  ∀ p, (c.index p).IsTidy

theorem isTidy_empty : empty.IsTidy := by
  intro p
  cases p <;> exact Index.isTidy_empty

theorem IsTidy.apply (h : c.IsTidy) (change : Change Quad) : (c.apply change).IsTidy := by
  intro p
  cases change with
  | gained q =>
      rw [Contents.apply, index_insert]
      exact (h p).insert _ _
  | lost q =>
      rw [Contents.apply, index_erase]
      exact (h p).erase _ _

theorem IsTidy.replay (h : c.IsTidy) (changes : List (Change Quad)) : (c.replay changes).IsTidy := by
  induction changes generalizing c with
  | nil => exact h
  | cons change rest ih => exact ih (h.apply change)

/-- The contents are the quads of `held`, and every way of asking for them answers for just these. -/
structure Answers (c : Contents) (held : Quad → Prop) : Prop where
  contains_iff : ∀ q, c.contains q = true ↔ held q
  mem_toList_iff : ∀ q, q ∈ c.toList ↔ held q
  pairwise_lookup : ∀ f, (c.lookup f).Pairwise fun a b => compare a b = .lt
  mem_lookup_iff : ∀ f q, q ∈ c.lookup f ↔ held q ∧ ∀ p n, f.at p = some n → q.at p = n
  lookup_eq_scan : ∀ f, c.lookup f = c.toList.filter f.passes
  mem_bucket_iff : ∀ p n q, q ∈ (c.index p).bucket n ↔ held q ∧ q.at p = n
  bucket_ne_empty : ∀ p n b, (c.index p).buckets.get? n = some b → b ≠ ∅
  size_eq : c.size = {q | held q}.encard

private theorem pairwise_lookup (c : Contents) (f : QuadFilter) :
    (c.lookup f).Pairwise fun a b => compare a b = .lt :=
  (c.candidates f).pairwise_toList.filter _

theorem IsIndexed.lookup_eq_scan (h : c.IsIndexed) (f : QuadFilter) :
    c.lookup f = c.toList.filter f.passes := by
  refine eq_of_increasing (pairwise_lookup c f) (c.quads.pairwise_toList.filter _) fun q => ?_
  rw [h.mem_lookup_iff, List.mem_filter, toList, OrderedSet.mem_toList_iff, contains_iff]

private theorem size_eq_encard (c : Contents) : c.size = {q | c.Has q}.encard := by
  have hset : {q | c.Has q} = (c.toList.toFinset : Set Quad) := by
    ext q
    rw [Finset.mem_coe, List.mem_toFinset, toList, OrderedSet.mem_toList_iff]
    rfl
  have hnodup : c.toList.Nodup := c.quads.nodup_toList
  have hlength : c.toList.length = c.size := List.length_map _
  rw [hset, Set.encard_coe_eq_coe_finsetCard, List.toFinset_card_of_nodup hnodup, hlength]

theorem IsIndexed.answers (h : c.IsIndexed) (htidy : c.IsTidy) : c.Answers c.Has where
  contains_iff _ := Iff.rfl
  mem_toList_iff _ := OrderedSet.mem_toList_iff
  pairwise_lookup := c.pairwise_lookup
  mem_lookup_iff _ _ := h.mem_lookup_iff.trans (and_congr_right fun _ => passes_iff)
  lookup_eq_scan := h.lookup_eq_scan
  mem_bucket_iff := h
  bucket_ne_empty := htidy
  size_eq := c.size_eq_encard

end Contents

namespace Store

/-- The quads stored after the actions: of the changes asked for, the last one about a quad decides. -/
def stored (actions : List Action) : Quad → Prop :=
  Change.stepAll (actions.flatMap Action.asked) fun _ => False

namespace Session

theorem answers_run (actions : List Action) :
    (start.run actions).store.contents.Answers (stored actions) := by
  have hhas : (start.run actions).store.contents.Has = stored actions := by
    have hempty : Contents.empty.Has = fun _ => False := by
      funext q
      exact propext (iff_false_intro Contents.not_contains_empty)
    rw [contents_run, Contents.has_replay_effects, stored, ← hempty]
    rfl
  rw [← hhas, contents_run]
  exact (Contents.isIndexed_empty.replay _).answers (Contents.isTidy_empty.replay _)

theorem kept_run (s : Session) (actions : List Action) :
    ∃ later, (s.run actions).kept = s.kept ++ later := by
  induction actions generalizing s with
  | nil => exact ⟨[], (List.append_nil _).symm⟩
  | cons a rest ih =>
      obtain ⟨later, hlater⟩ := ih (s.carryOut a)
      have hstep : ∃ now, (s.carryOut a).kept = s.kept ++ now := by
        cases a with
        | keep => exact ⟨[s.store.contents], rfl⟩
        | mutate m => exact ⟨[], (List.append_nil _).symm⟩
        | subscribe => exact ⟨[], (List.append_nil _).symm⟩
        | unsubscribe id => exact ⟨[], (List.append_nil _).symm⟩
        | drain id => exact ⟨[], (List.append_nil _).symm⟩
      obtain ⟨now, hnow⟩ := hstep
      refine ⟨now ++ later, ?_⟩
      rw [← List.append_assoc, ← hnow, ← hlater]
      rfl

/-- A store, and contents kept aside at any moment, answer every look-up as a scan would: the store
for all that was done, the kept contents for all that was done before they were kept. -/
theorem lookups_agree_with_scan (before after : List Action) :
    let s := start.run before
    let s' := (s.carryOut .keep).run after
    s'.store.contents.Answers (stored (before ++ .keep :: after)) ∧
      ∃ c, s'.kept[s.kept.length]? = some c ∧ c.Answers (stored before) := by
  intro s s'
  have hrun : start.run (before ++ .keep :: after) = s' := run_append
  obtain ⟨later, hlater⟩ := kept_run (s.carryOut .keep) after
  have hkept : s'.kept = s.kept ++ s.store.contents :: later := by
    rw [hlater]
    exact List.append_assoc _ _ _
  refine ⟨hrun ▸ answers_run _, s.store.contents, ?_, answers_run before⟩
  rw [hkept, List.getElem?_append_right (Nat.le_refl _), Nat.sub_self]
  rfl

end Session

end Store

end Entail
