import Entail.Proofs.Network.Delta
import Entail.Proofs.Ordered
import Entail.Store.Contents
/-!
# Contents

The indices of contents agree with the set of quads, whatever was inserted and erased, so a look-up
finds every quad that passes its filter.
-/

namespace Entail

namespace Contents

variable {c : Contents} {q r : Quad}

/-- The set of the quads held. -/
def Has (c : Contents) (q : Quad) : Prop :=
  c.contains q = true

theorem contains_iff : c.contains q = true ↔ q ∈ c.quads := Iff.rfl

theorem contains_insert : (c.insert q).contains r = true ↔ c.contains r = true ∨ r = q := by
  rw [contains_iff, contains_iff, insert, OrderedSet.mem_insert, or_comm, eq_comm]

theorem contains_erase : (c.erase q).contains r = true ↔ c.contains r = true ∧ r ≠ q := by
  rw [contains_iff, contains_iff, erase, OrderedSet.mem_erase, and_comm, ne_comm]

theorem not_contains_empty : ¬ empty.contains q = true :=
  OrderedSet.not_mem_empty q

theorem contains_apply {change : Change Quad} :
    (c.apply change).contains r = true ↔ change.step (fun x => c.contains x = true) r := by
  cases change with
  | gained q => exact contains_insert
  | lost q => exact contains_erase

theorem has_replay (changes : List (Change Quad)) :
    (c.replay changes).Has = changes.foldl (fun held change => change.step held) c.Has := by
  induction changes generalizing c with
  | nil => rfl
  | cons change rest ih =>
      have hstep : (c.apply change).Has = change.step c.Has := by
        funext q
        exact propext contains_apply
      rw [List.foldl_cons, ← hstep, ← ih]
      rfl

theorem has_replay_concat (changes : List (Change Quad)) (change : Change Quad) :
    (c.replay (changes ++ [change])).Has = change.step (c.replay changes).Has := by
  rw [has_replay, has_replay, List.foldl_append]
  rfl

/-- Every index files the quads of the contents, each under its node at the position of the
index. -/
def IsIndexed (c : Contents) : Prop :=
  ∀ p n q, q ∈ (c.index p).bucket n ↔ q ∈ c.quads ∧ q.at p = n

theorem isIndexed_empty : empty.IsIndexed := by
  intro p n q
  have hleft : ¬ q ∈ (empty.index p).bucket n := by
    cases p <;> exact OrderedSet.not_mem_empty q
  have hright : ¬ q ∈ empty.quads := OrderedSet.not_mem_empty q
  simp [hleft, hright]

theorem index_insert (c : Contents) (q : Quad) (p : Position) :
    (c.insert q).index p = (c.index p).insert (q.at p) q := by
  cases p <;> rfl

theorem index_erase (c : Contents) (q : Quad) (p : Position) :
    (c.erase q).index p = (c.index p).erase (q.at p) q := by
  cases p <;> rfl

theorem IsIndexed.insert (h : c.IsIndexed) (q : Quad) : (c.insert q).IsIndexed := by
  intro p n r
  have hquads : r ∈ (c.insert q).quads ↔ r ∈ c.quads ∨ r = q := contains_insert
  rw [index_insert, Index.mem_bucket_insert, h p n r, hquads]
  constructor
  · rintro (⟨hr, hn⟩ | ⟨hn, rfl⟩)
    · exact ⟨Or.inl hr, hn⟩
    · exact ⟨Or.inr rfl, hn⟩
  · rintro ⟨hr | rfl, hn⟩
    · exact Or.inl ⟨hr, hn⟩
    · exact Or.inr ⟨hn, rfl⟩

theorem IsIndexed.erase (h : c.IsIndexed) (q : Quad) : (c.erase q).IsIndexed := by
  intro p n r
  have hquads : r ∈ (c.erase q).quads ↔ r ∈ c.quads ∧ r ≠ q := contains_erase
  rw [index_erase, Index.mem_bucket_erase, h p n r, hquads]
  constructor
  · rintro ⟨⟨hr, hn⟩, hne⟩
    refine ⟨⟨hr, ?_⟩, hn⟩
    rintro rfl
    exact hne ⟨hn, rfl⟩
  · rintro ⟨⟨hr, hne⟩, hn⟩
    exact ⟨⟨hr, hn⟩, fun heq => hne heq.2⟩

theorem IsIndexed.apply (h : c.IsIndexed) (change : Change Quad) : (c.apply change).IsIndexed := by
  cases change with
  | gained q => exact h.insert q
  | lost q => exact h.erase q

theorem IsIndexed.replay (h : c.IsIndexed) (changes : List (Change Quad)) :
    (c.replay changes).IsIndexed := by
  induction changes generalizing c with
  | nil => exact h
  | cons change rest ih => exact ih (h.apply change)

/-! ## Look-ups -/

theorem passes_iff {f : QuadFilter} :
    f.passes q = true ↔ ∀ p n, f.at p = some n → q.at p = n := by
  have hadmits : ∀ (required : Option Node) (k : Node),
      QuadFilter.admits required k = true ↔ ∀ n, required = some n → k = n := by
    intro required k
    cases required with
    | none => exact iff_of_true rfl nofun
    | some r =>
        rw [QuadFilter.admits, beq_iff_eq]
        constructor
        · rintro rfl n hn
          exact Option.some.inj hn
        · intro h
          exact (h r rfl).symm
  simp only [QuadFilter.passes, Bool.and_eq_true, hadmits]
  constructor
  · rintro ⟨⟨⟨hgraph, hsubject⟩, hpredicate⟩, hobject⟩ p
    cases p with
    | graph => exact hgraph
    | subject => exact hsubject
    | predicate => exact hpredicate
    | object => exact hobject
  · exact fun h => ⟨⟨⟨h .graph, h .subject⟩, h .predicate⟩, h .object⟩

private theorem smaller_eq (s t : OrderedSet Quad) : smaller s t = s ∨ smaller s t = t := by
  unfold smaller
  split
  · exact Or.inr rfl
  · exact Or.inl rfl

private theorem foldl_smaller_mem (sets : List (OrderedSet Quad)) (s : OrderedSet Quad) :
    sets.foldl smaller s ∈ s :: sets := by
  induction sets generalizing s with
  | nil => exact List.mem_singleton_self s
  | cons t rest ih =>
      rw [List.foldl_cons]
      rcases List.mem_cons.1 (ih (smaller s t)) with h | h
      · rw [h]
        rcases smaller_eq s t with h | h
        · simp [h]
        · simp [h]
      · exact List.mem_cons_of_mem _ (List.mem_cons_of_mem _ h)

private theorem candidates_eq (c : Contents) (f : QuadFilter) :
    c.candidates f = c.quads ∨
      ∃ p n, f.at p = some n ∧ c.candidates f = (c.index p).bucket n := by
  unfold candidates
  split
  · exact Or.inl rfl
  · rename_i s rest heq
    right
    have hmem := foldl_smaller_mem rest s
    rw [← heq] at hmem
    obtain ⟨p, _, hp⟩ := List.mem_filterMap.1 hmem
    obtain ⟨n, hn, hbucket⟩ := Option.map_eq_some_iff.1 hp
    exact ⟨p, n, hn, hbucket.symm⟩

theorem IsIndexed.mem_lookup_iff (h : c.IsIndexed) {f : QuadFilter} :
    q ∈ c.lookup f ↔ c.contains q = true ∧ f.passes q = true := by
  rw [lookup, List.mem_filter, OrderedSet.mem_toList_iff]
  refine and_congr_left fun hf => ?_
  rcases candidates_eq c f with heq | ⟨p, n, hn, heq⟩
  · rw [heq]
    rfl
  · rw [heq, h p n q]
    exact and_iff_left (passes_iff.1 hf p n hn)

end Contents

end Entail
