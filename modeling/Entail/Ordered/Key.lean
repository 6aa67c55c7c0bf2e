/-!
# Orders by key

A type is ordered by mapping it to a key that tells its values apart; pairs are compared first
component first, and every left summand comes before every right one.
-/

namespace Entail

open Std

variable {α β : Type}

instance Pair.instOrd [Ord α] [Ord β] : Ord (α × β) where
  compare := compareLex (compareOn Prod.fst) (compareOn Prod.snd)

instance Pair.instTransOrd [Ord α] [Ord β] [TransOrd α] [TransOrd β] : TransOrd (α × β) :=
  inferInstanceAs
    (TransCmp (compareLex (compareOn (Prod.fst (α := α) (β := β))) (compareOn Prod.snd)))

instance Pair.instLawfulEqOrd [Ord α] [Ord β] [LawfulEqOrd α] [LawfulEqOrd β] :
    LawfulEqOrd (α × β) where
  compare_self := by
    intro a
    exact compareLex_eq_eq.2 ⟨Std.compare_eq_iff_eq.2 rfl, Std.compare_eq_iff_eq.2 rfl⟩
  eq_of_compare := by
    intro a b h
    have h := compareLex_eq_eq.1 h
    exact Prod.ext (Std.compare_eq_iff_eq.1 h.1) (Std.compare_eq_iff_eq.1 h.2)

instance Either.instOrd [Ord α] [Ord β] : Ord (α ⊕ β) where
  compare
    | .inl a, .inl b => compare a b
    | .inl _, .inr _ => .lt
    | .inr _, .inl _ => .gt
    | .inr a, .inr b => compare a b

instance Either.instTransOrd [Ord α] [Ord β] [TransOrd α] [TransOrd β] : TransOrd (α ⊕ β) where
  eq_swap := by
    rintro (a | a) (b | b)
    · exact OrientedOrd.eq_swap (α := α)
    · rfl
    · rfl
    · exact OrientedOrd.eq_swap (α := β)
  isLE_trans := by
    rintro (a | a) (b | b) (c | c) hab hbc
    · exact TransOrd.isLE_trans (α := α) (b := b) hab hbc
    · rfl
    · cases hbc
    · rfl
    · cases hab
    · cases hab
    · cases hbc
    · exact TransOrd.isLE_trans (α := β) (b := b) hab hbc

instance Either.instLawfulEqOrd [Ord α] [Ord β] [LawfulEqOrd α] [LawfulEqOrd β] :
    LawfulEqOrd (α ⊕ β) where
  compare_self := by
    rintro (a | a)
    · exact Std.compare_eq_iff_eq (α := α).2 rfl
    · exact Std.compare_eq_iff_eq (α := β).2 rfl
  eq_of_compare := by
    rintro (a | a) (b | b) h
    · exact congrArg Sum.inl (Std.compare_eq_iff_eq (α := α).1 h)
    · cases h
    · cases h
    · exact congrArg Sum.inr (Std.compare_eq_iff_eq (α := β).1 h)

/-- Order `α` by `key`. -/
abbrev ordByKey [Ord β] (key : α → β) : Ord α := ⟨compareOn key⟩

theorem transOrd_ordByKey [Ord β] [TransOrd β] (key : α → β) : @TransOrd α (ordByKey key) :=
  inferInstanceAs (TransCmp (compareOn key))

theorem lawfulEqOrd_ordByKey [Ord β] [LawfulEqOrd β] {key : α → β}
    (h : ∀ a b, key a = key b → a = b) : @LawfulEqOrd α (ordByKey key) :=
  @LawfulEqCmp.mk α (compareOn key) ⟨fun {_} => Std.compare_eq_iff_eq.2 rfl⟩
    fun {a b} hab => h a b (Std.compare_eq_iff_eq.1 hab)

/-- The list in order, with its repetitions. -/
def ascending [Ord α] (l : List α) : List α :=
  l.mergeSort fun a b => (compare a b).isLE

theorem mem_ascending [Ord α] {l : List α} {a : α} : a ∈ ascending l ↔ a ∈ l :=
  List.mem_mergeSort

theorem ascending_perm [Ord α] (l : List α) : (ascending l).Perm l :=
  List.mergeSort_perm l _

end Entail
