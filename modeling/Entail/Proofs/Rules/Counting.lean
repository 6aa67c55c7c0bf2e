import Entail.Proofs.Network.Count
import Entail.Proofs.Rules.Firings
/-!
# Counting conclusions

The sum of the counts at each entry of a map counts all of them together, and a match concludes a quad
as often as positions of the rule draw it.
-/

namespace Entail

namespace OrderedMap

variable {κ ν β : Type} [Ord κ] [Std.LawfulEqOrd κ]

omit [Ord κ] [Std.LawfulEqOrd κ] in
private theorem isCount_sum {S : κ × β → Prop} {f : κ → ν → Nat} {entries : List (κ × ν)}
    (hnodup : (entries.map Prod.fst).Nodup)
    (hcount : ∀ e ∈ entries, IsCount (fun b => S (e.1, b)) (f e.1 e.2))
    (hmem : ∀ k b, S (k, b) → k ∈ entries.map Prod.fst) :
    IsCount S ((entries.map fun e => f e.1 e.2).sum) := by
  induction entries generalizing S with
  | nil => exact IsCount.zero_iff.2 fun ⟨k, b⟩ h => List.not_mem_nil (hmem k b h)
  | cons e rest ih =>
      obtain ⟨k, v⟩ := e
      rw [List.map_cons, List.nodup_cons] at hnodup
      obtain ⟨l, hl, hlmem, hlen⟩ := hcount (k, v) List.mem_cons_self
      have hrest : IsCount (fun x => S x ∧ x.1 ≠ k) ((rest.map fun e => f e.1 e.2).sum) := by
        refine ih hnodup.2 (fun e he => ?_) fun k' b h => ?_
        · refine (hcount e (List.mem_cons_of_mem _ he)).congr fun b => ?_
          refine (and_iff_left fun heq => hnodup.1 ?_).symm
          exact List.mem_map.2 ⟨e, he, heq⟩
        · exact (List.mem_cons.1 (hmem k' b h.1)).resolve_left h.2
      obtain ⟨more, hmore, hmoremem, hmorelen⟩ := hrest
      refine ⟨l.map (fun b => (k, b)) ++ more, ?_, fun x => ?_, ?_⟩
      · rw [List.nodup_append']
        refine ⟨hl.map fun _ _ heq => (Prod.mk.inj heq).2, hmore, fun x hx hx' => ?_⟩
        obtain ⟨b, _, rfl⟩ := List.mem_map.1 hx
        exact ((hmoremem _).1 hx').2 rfl
      · obtain ⟨k', b⟩ := x
        rw [List.mem_append, hmoremem, List.mem_map]
        constructor
        · rintro (⟨b', hb', heq⟩ | h)
          · rw [← heq]
            exact (hlmem b').1 hb'
          · exact h.1
        · intro h
          by_cases heq : k' = k
          · subst heq
            exact Or.inl ⟨b, (hlmem b).2 h, rfl⟩
          · exact Or.inr ⟨h, heq⟩
      · rw [List.length_append, List.length_map, hlen, hmorelen]
        rfl

theorem isCount_sumOver {m : OrderedMap κ ν} {f : κ → ν → Nat} {S : κ × β → Prop}
    (hcount : ∀ k v, m.get? k = some v → IsCount (fun b => S (k, b)) (f k v))
    (hmem : ∀ k b, S (k, b) → m.contains k = true) : IsCount S (m.sumOver f) :=
  isCount_sum m.nodup_keys (fun e he => hcount e.1 e.2 (mem_toList_iff.1 he))
    fun k b h => mem_keys_iff.2 (hmem k b h)

end OrderedMap

/-! ## Conclusions by position -/

namespace Rule

variable {ev : Evaluator} {graph : Node} {r : Rule} {b : Bindings} {q : Quad}

/-- The conclusion at position `i` draws `q`. -/
def Draws (ev : Evaluator) (graph : Node) (r : Rule) (b : Bindings) (q : Quad) (i : Nat) : Prop :=
  r.checkGuard ev b = .passed ∧
    ∃ c, r.conclusions[i]? = some c ∧ c.resolve ev graph b = .ok q

private theorem count_filterMap {α : Type} {f : α → Option Quad} (l : List α) (q : Quad) :
    IsCount (fun i : Nat => ∃ a, l[i]? = some a ∧ f a = some q) ((l.filterMap f).count q) := by
  induction l with
  | nil =>
      refine IsCount.zero_iff.2 fun i => ?_
      rintro ⟨a, ha, _⟩
      cases ha
  | cons a rest ih =>
      obtain ⟨l, hl, hmem, hlen⟩ := ih
      have hshift : ∀ i, i ∈ l.map (· + 1) ↔
          ∃ j, i = j + 1 ∧ ∃ x, rest[j]? = some x ∧ f x = some q := by
        intro i
        rw [List.mem_map]
        constructor
        · rintro ⟨j, hj, rfl⟩
          exact ⟨j, rfl, (hmem j).1 hj⟩
        · rintro ⟨j, rfl, hj⟩
          exact ⟨j, (hmem j).2 hj, rfl⟩
      have hnodup : (l.map (· + 1)).Nodup := hl.map fun _ _ h => Nat.succ.inj h
      by_cases ha : f a = some q
      · refine ⟨0 :: l.map (· + 1), List.nodup_cons.2 ⟨?_, hnodup⟩, fun i => ?_, ?_⟩
        · rw [List.mem_map]
          rintro ⟨j, _, hj⟩
          cases hj
        · rw [List.mem_cons, hshift]
          cases i with
          | zero => simp [ha]
          | succ j => simp
        · rw [List.filterMap_cons_some ha, List.count_cons_self, List.length_cons, List.length_map,
            hlen]
      · refine ⟨l.map (· + 1), hnodup, fun i => ?_, ?_⟩
        · rw [hshift]
          cases i with
          | zero => simp [ha]
          | succ j => simp
        · rw [List.length_map, hlen]
          cases hfa : f a with
          | none => rw [List.filterMap_cons_none hfa]
          | some x =>
              have hx : x ≠ q := fun heq => ha (heq ▸ hfa)
              rw [List.filterMap_cons_some hfa, List.count_cons_of_ne hx]

theorem count_instantiate (ev : Evaluator) (graph : Node) (r : Rule) (b : Bindings) (q : Quad) :
    IsCount (r.Draws ev graph b q) ((r.instantiate ev graph b).quads.count q) := by
  unfold Draws instantiate
  cases r.checkGuard ev b with
  | blocked => exact IsCount.zero_iff.2 fun _ h => nomatch h.1
  | failed e => exact IsCount.zero_iff.2 fun _ h => nomatch h.1
  | passed =>
      simp only [List.filterMap_map]
      refine (count_filterMap (r.conclusions.zipIdx) q).congr fun i => ?_
      rw [true_and]
      constructor
      · rintro ⟨⟨c, j⟩, hget, hleft⟩
        rw [List.getElem?_zipIdx, Option.map_eq_some_iff] at hget
        obtain ⟨c', hc', heq⟩ := hget
        obtain ⟨rfl, rfl⟩ := Prod.mk.inj heq
        refine ⟨c', hc', ?_⟩
        cases hres : c'.resolve ev graph b with
        | error e => simp [hres] at hleft
        | ok x =>
            simp [hres] at hleft
            rw [hleft]
      · rintro ⟨c, hc, hres⟩
        refine ⟨(c, 0 + i), ?_, ?_⟩
        · rw [List.getElem?_zipIdx, hc]
          rfl
        · simp [hres]

end Rule

end Entail
