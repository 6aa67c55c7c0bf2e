import Entail.Proofs.Network.Binding
/-!
# Levels

What a network has found up to each of its positive patterns: what the held quads bind that match the
patterns so far together. What gets as far as a pattern got as far as those before it, and whatever
comes out of a condition got past all of them.
-/

namespace Entail

variable {ev : Evaluator} {c : Condition} {held : Quad → Prop} {t : Token} {b : Bindings} {m n i : Nat}

namespace Condition

theorem reaches_iff_join? : c.Reaches held n b ↔
    ∃ facts : List Quad, (∀ q ∈ facts, held q) ∧
      Bindings.join? ∅ (c.positives.take n) facts = some b := by
  simp only [Bindings.join?_empty_eq_some_iff]
  exact Iff.rfl

private theorem exists_reaches {facts : List Quad} (hheld : ∀ q ∈ facts, held q)
    (hfits : Pattern.FitsAll b (c.positives.take n) facts) : ∃ found, c.Reaches held n found := by
  obtain ⟨found, hjoin, _⟩ := Bindings.exists_join?_of_fitsAll (Bindings.extends_empty b) hfits
  exact ⟨found, reaches_iff_join?.2 ⟨facts, hheld, hjoin⟩⟩

theorem Reaches.exists_of_le (h : c.Reaches held n b) (hmn : m ≤ n) :
    ∃ found, c.Reaches held m found := by
  obtain ⟨facts, hheld, hfits, _⟩ := h
  have hfirst := hfits.take m
  rw [List.take_take, Nat.min_eq_left hmn] at hfirst
  exact exists_reaches (fun q hq => hheld q (List.mem_of_mem_take hq)) hfirst

theorem IsMatch.exists_reaches (h : c.IsMatch held t) (n : Nat) : ∃ found, c.Reaches held n found :=
  Condition.exists_reaches (fun q hq => h.1 q (List.mem_of_mem_take hq)) (h.2.fits.take n)

/-- Whatever comes out of a condition, as a match or as the row of a group, got past all its
patterns. -/
theorem IsOutput.exists_reaches (h : c.IsOutput ev held t) (n : Nat) :
    ∃ found, c.Reaches held n found := by
  unfold IsOutput at h
  cases ha : c.aggregation with
  | none =>
      rw [ha] at h
      exact IsMatch.exists_reaches h n
  | some a =>
      rw [ha] at h
      obtain ⟨key, members, hne, hmembers, _⟩ := h
      obtain ⟨s, hs⟩ := OrderedSet.exists_mem_of_ne_empty hne
      exact ((hmembers s).1 hs).1.exists_reaches n

end Condition

namespace Network

/-- The bindings at a pattern are what the held quads bind that match the patterns so far. -/
theorem Tracks.mem_stepBindings_iff {network : Network} (h : network.Tracks ev held)
    (hi : i < network.condition.positives.length) :
    b ∈ network.stepBindings i ↔ network.condition.Reaches held (i + 1) b := by
  rw [stepBindings, OrderedSet.mem_ofList, List.mem_map, Condition.reaches_iff_join?]
  constructor
  · rintro ⟨p, hp, rfl⟩
    obtain ⟨hseed, hheld, hjoin⟩ := (h.positive.mem_level_iff hi).1 hp
    have hroot : p.seed.bindings = ∅ := congrArg Token.bindings hseed
    rw [Partial.Joins, hroot] at hjoin
    exact ⟨p.facts, hheld, hjoin⟩
  · rintro ⟨facts, hheld, hjoin⟩
    exact ⟨⟨.root, b, facts⟩, (h.positive.mem_level_iff hi).2 ⟨rfl, hheld, hjoin⟩, rfl⟩

end Network

end Entail
