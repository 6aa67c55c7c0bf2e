import Entail.Proofs.Network.Solutions
import Entail.Queries.Engine
/-!
# Live results

A live result is primed from a store and updated with every change of it. It never faults, it has the
solutions of its condition over the quads it was told of, and it reports how they change.
-/

namespace Entail

namespace LiveResult

variable {ev : Evaluator} {c : Condition} {held : Quad → Prop} {r : LiveResult}

/-- The result is that of `c` over the quads that satisfy `held`. -/
structure Follows (r : LiveResult) (ev : Evaluator) (c : Condition) (held : Quad → Prop) :
    Prop where
  condition_eq : r.network.condition = c
  tracks : r.network.Tracks ev held
  counts : r.solutions.Counts (c.IsOutput ev held)

theorem Follows.mem_toList_iff (h : r.Follows ev c held) {b : Bindings} :
    b ∈ r.solutions.toList ↔ c.IsSolution ev held b :=
  h.counts.mem_toList_iff

theorem prime_spec (ev : Evaluator) {n : Network} (h : Network.compile c = .ok n)
    {contents : Contents} (hindexed : contents.IsIndexed) :
    ∃ r, prime ev contents n = .ok r ∧ r.Follows ev c contents.Has := by
  obtain ⟨p, network, hprime, hcondition, htracks, halters⟩ := Network.prime_spec ev h hindexed
  have hside : ∀ t t', .lost t ∈ p.changes → .gained t' ∈ p.changes →
      t.bindings ≠ t'.bindings :=
    fun t _ ht => absurd ((halters.lost_iff t).1 ht).1 id
  obtain ⟨changes, solutions, hreceive, hcounts, _⟩ :=
    Solutions.counts_empty.receiveAll_spec halters hside
  refine ⟨⟨network, solutions⟩, ?_, hcondition, htracks, hcounts⟩
  rw [prime, hprime]
  simp only [Result.ok_bind, hreceive]
  rfl

theorem Follows.update_spec (h : r.Follows ev c held) (change : Change Quad) :
    ∃ changes r', r.update ev change = .ok (changes, r') ∧ r'.Follows ev c (change.step held) ∧
      Alters changes (c.IsSolution ev held) (c.IsSolution ev (change.step held)) := by
  obtain ⟨p, network, hupdate, hcondition, htracks, halters⟩ := h.tracks.update_spec change
  rw [h.condition_eq] at hcondition halters
  have hside : ∀ t t', .lost t ∈ p.changes → .gained t' ∈ p.changes →
      t.bindings ≠ t'.bindings :=
    fun t t' ht ht' => Condition.IsOutput.bindings_ne ((halters.lost_iff t).1 ht)
      ((halters.gained_iff t').1 ht')
  obtain ⟨changes, solutions, hreceive, hcounts, hsolutions⟩ :=
    h.counts.receiveAll_spec halters hside
  refine ⟨changes, ⟨network, solutions⟩, ?_, ⟨hcondition, htracks, hcounts⟩, hsolutions⟩
  rw [update, hupdate]
  simp only [Result.ok_bind, hreceive]
  rfl

/-- Take in one change after the other. -/
def follow (ev : Evaluator) (r : LiveResult) (changes : List (Change Quad)) :
    Except Fault LiveResult :=
  changes.foldlM (fun r change => (r.update ev change).map Prod.snd) r

theorem Follows.follow_spec (h : r.Follows ev c held) (changes : List (Change Quad)) :
    ∃ r', r.follow ev changes = .ok r' ∧ r'.Follows ev c (Change.stepAll changes held) := by
  induction changes generalizing r held with
  | nil => exact ⟨r, rfl, h⟩
  | cons change rest ih =>
      obtain ⟨_, r₁, h₁, hfollows, _⟩ := h.update_spec change
      obtain ⟨r₂, h₂, hfollows'⟩ := ih hfollows
      refine ⟨r₂, ?_, hfollows'⟩
      rw [follow, List.foldlM_cons, h₁]
      exact h₂

end LiveResult

end Entail
