import Entail.Proofs.Network.Delta
/-!
# Counts

The number of elements of a finite set, read off a list of its elements without repetition.
-/

namespace Entail

variable {α β : Type}

/-- Some list holds the elements of `S`, each of them once, and has length `n`. -/
def IsCount (S : α → Prop) (n : Nat) : Prop :=
  ∃ l : List α, l.Nodup ∧ (∀ a, a ∈ l ↔ S a) ∧ l.length = n

namespace IsCount

variable {S S' : α → Prop} {n m : Nat}

theorem unique (h : IsCount S n) (h' : IsCount S m) : n = m := by
  obtain ⟨l, hl, hmem, rfl⟩ := h
  obtain ⟨l', hl', hmem', rfl⟩ := h'
  have hperm : l.Perm l' := (List.perm_ext_iff_of_nodup hl hl').2 fun a => by
    rw [hmem, hmem']
  exact hperm.length_eq

theorem congr (h : IsCount S n) (hiff : ∀ a, S a ↔ S' a) : IsCount S' n := by
  obtain ⟨l, hl, hmem, hlen⟩ := h
  exact ⟨l, hl, fun a => (hmem a).trans (hiff a), hlen⟩

theorem of_list {l : List α} (hl : l.Nodup) (hmem : ∀ a, a ∈ l ↔ S a) : IsCount S l.length :=
  ⟨l, hl, hmem, rfl⟩

theorem zero_iff : IsCount S 0 ↔ ∀ a, ¬ S a := by
  constructor
  · rintro ⟨l, _, hmem, hlen⟩ a ha
    have hnil : l = [] := List.length_eq_zero_iff.1 hlen
    rw [← hmem, hnil] at ha
    exact List.not_mem_nil ha
  · intro h
    refine ⟨[], List.nodup_nil, fun a => ?_, rfl⟩
    simp [h a]

theorem pos_iff (h : IsCount S n) : 0 < n ↔ ∃ a, S a := by
  rw [Nat.pos_iff_ne_zero, ← not_forall_not, not_iff_not]
  constructor
  · rintro rfl
    exact zero_iff.1 h
  · intro hnone
    exact h.unique (zero_iff.2 hnone)

theorem image {T : β → Prop} {f : α → β} {g : β → α} (h : IsCount S n)
    (hf : ∀ a, S a → T (f a) ∧ g (f a) = a) (hg : ∀ b, T b → S (g b) ∧ f (g b) = b) :
    IsCount T n := by
  obtain ⟨l, hl, hmem, rfl⟩ := h
  have hback : ∀ a ∈ l, g (f a) = a := fun a ha => (hf a ((hmem a).1 ha)).2
  refine ⟨l.map f, ?_, fun b => ?_, List.length_map f⟩
  · refine hl.map_on fun a ha a' ha' heq => ?_
    rw [← hback a ha, heq, hback a' ha']
  · rw [List.mem_map]
    constructor
    · rintro ⟨a, ha, rfl⟩
      exact (hf a ((hmem a).1 ha)).1
    · intro hb
      exact ⟨g b, (hmem _).2 (hg b hb).1, (hg b hb).2⟩

theorem add {a : α} (h : IsCount S n) (ha : ¬ S a) : IsCount (fun x => S x ∨ x = a) (n + 1) := by
  obtain ⟨l, hl, hmem, rfl⟩ := h
  have hnot : a ∉ l := fun h => ha ((hmem a).1 h)
  refine ⟨a :: l, List.nodup_cons.2 ⟨hnot, hl⟩, fun x => ?_, rfl⟩
  rw [List.mem_cons, hmem, or_comm]

theorem sub {a : α} (h : IsCount S n) (ha : S a) :
    ∃ k, n = k + 1 ∧ IsCount (fun x => S x ∧ x ≠ a) k := by
  classical
  obtain ⟨l, hl, hmem, rfl⟩ := h
  have hin : a ∈ l := (hmem a).2 ha
  refine ⟨(l.erase a).length, ?_, l.erase a, hl.erase a, fun x => ?_, rfl⟩
  · rw [List.length_erase_of_mem hin]
    have := List.length_pos_of_mem hin
    omega
  · rw [hl.mem_erase_iff, hmem, and_comm]

end IsCount

end Entail
