import Entail.Proofs.Network.Outputs
/-!
# Incremental evaluation

A network that was made for a condition, took in a store and then any changes has as outputs what the
condition yields over the quads held in the end, evaluated directly.
-/

namespace Entail

variable {ev : Evaluator} {c : Condition} {held : Quad → Prop}

/-- The members of a group: the tokens that satisfy `found` and have the nodes of `key`. -/
structure Aggregation.IsGroup (a : Aggregation) (found : Token → Prop) (key : List Node)
    (members : OrderedSet Token) : Prop where
  nonempty : members ≠ ∅
  mem_iff : ∀ t, t ∈ members ↔ found t ∧ t.bindings.joinKey a.groupBy = .ok key

namespace Network

/-- Take in one change after the other. -/
def follow (ev : Evaluator) (n : Network) (changes : List (Change Quad)) : Except Fault Network :=
  changes.foldlM (fun n change => (n.update ev change).map Prod.snd) n

theorem Tracks.follow_spec {n : Network} (h : n.Tracks ev held) (changes : List (Change Quad)) :
    ∃ n', n.follow ev changes = .ok n' ∧ n'.condition = n.condition ∧
      n'.Tracks ev (changes.foldl (fun held change => change.step held) held) := by
  induction changes generalizing n held with
  | nil => exact ⟨n, rfl, rfl, h⟩
  | cons change rest ih =>
      obtain ⟨p, n₁, h₁, hc₁, ht₁, _⟩ := h.update_spec change
      obtain ⟨n₂, h₂, hc₂, ht₂⟩ := ih ht₁
      refine ⟨n₂, ?_, hc₂.trans hc₁, ht₂⟩
      rw [follow, List.foldlM_cons, h₁]
      exact h₂

end Network

end Entail
