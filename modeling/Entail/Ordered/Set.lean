import Entail.Ordered.Map
/-!
# Ordered sets

A finite set listed in increasing order, without repetition. Two sets with the same members are the
same set.
-/

namespace Entail

open Std

variable {α : Type} [Ord α]

/-- A finite set of `α`: the keys of a map that carries no values. -/
structure OrderedSet (α : Type) [Ord α] where
  toMap : OrderedMap α Unit
deriving DecidableEq

namespace OrderedSet

def empty : OrderedSet α := ⟨.empty⟩

instance : EmptyCollection (OrderedSet α) := ⟨empty⟩

instance : Inhabited (OrderedSet α) := ⟨empty⟩

def contains (s : OrderedSet α) (a : α) : Bool :=
  s.toMap.contains a

instance : Membership α (OrderedSet α) := ⟨fun s a => s.contains a = true⟩

instance (a : α) (s : OrderedSet α) : Decidable (a ∈ s) :=
  inferInstanceAs (Decidable (s.contains a = true))

def toList (s : OrderedSet α) : List α :=
  s.toMap.keys

def size (s : OrderedSet α) : Nat :=
  s.toMap.size

def isEmpty (s : OrderedSet α) : Bool :=
  s.toMap.isEmpty

def erase (s : OrderedSet α) (a : α) : OrderedSet α :=
  ⟨s.toMap.erase a⟩

def filter (s : OrderedSet α) (p : α → Bool) : OrderedSet α :=
  ⟨s.toMap.filter fun a _ => p a⟩

theorem mem_iff {a : α} {s : OrderedSet α} : a ∈ s ↔ s.contains a = true := Iff.rfl

theorem not_mem_empty (a : α) : a ∉ (empty : OrderedSet α) := by
  simp [mem_iff, contains, empty, OrderedMap.contains]

theorem pairwise_toList (s : OrderedSet α) : s.toList.Pairwise fun a b => compare a b = .lt :=
  s.toMap.pairwise_keys

theorem isEmpty_iff {s : OrderedSet α} : s.isEmpty = true ↔ s = empty := by
  obtain ⟨m⟩ := s
  simp [isEmpty, empty, OrderedMap.isEmpty_iff]

section Lookup

variable [LawfulEqOrd α]

theorem mem_toList_iff {a : α} {s : OrderedSet α} : a ∈ s.toList ↔ a ∈ s :=
  OrderedMap.mem_keys_iff

theorem nodup_toList (s : OrderedSet α) : s.toList.Nodup := by
  refine s.pairwise_toList.imp fun {a b} h hab => ?_
  rw [Std.compare_eq_iff_eq.2 hab] at h
  cases h

theorem mem_erase [DecidableEq α] {s : OrderedSet α} {a b : α} :
    b ∈ s.erase a ↔ a ≠ b ∧ b ∈ s := by
  by_cases h : a = b <;>
    simp [mem_iff, contains, erase, OrderedMap.contains, OrderedMap.get?_erase, h]

theorem mem_filter {s : OrderedSet α} {p : α → Bool} {a : α} :
    a ∈ s.filter p ↔ a ∈ s ∧ p a = true := by
  simp only [mem_iff, contains, filter, OrderedMap.contains, OrderedMap.get?_filter]
  cases s.toMap.get? a <;> simp [Option.filter]

end Lookup

section Lawful

variable [TransOrd α] [LawfulEqOrd α]

def insert (s : OrderedSet α) (a : α) : OrderedSet α :=
  ⟨s.toMap.insert a ()⟩

def insertAll (s : OrderedSet α) (l : List α) : OrderedSet α :=
  l.foldl insert s

def ofList (l : List α) : OrderedSet α :=
  empty.insertAll l

def union (s t : OrderedSet α) : OrderedSet α :=
  s.insertAll t.toList

theorem mem_insert [DecidableEq α] {s : OrderedSet α} {a b : α} :
    b ∈ s.insert a ↔ a = b ∨ b ∈ s := by
  by_cases h : a = b <;>
    simp [mem_iff, contains, insert, OrderedMap.contains, OrderedMap.get?_insert, h]

theorem mem_insertAll [DecidableEq α] {l : List α} {s : OrderedSet α} {b : α} :
    b ∈ s.insertAll l ↔ b ∈ l ∨ b ∈ s := by
  unfold insertAll
  induction l generalizing s with
  | nil => simp
  | cons a rest ih =>
    rw [List.foldl_cons, ih, mem_insert, List.mem_cons, eq_comm (a := a)]
    exact or_left_comm.trans or_assoc.symm

theorem mem_ofList [DecidableEq α] {l : List α} {b : α} : b ∈ ofList l ↔ b ∈ l := by
  simp [ofList, mem_insertAll, not_mem_empty]

theorem mem_union [DecidableEq α] {s t : OrderedSet α} {b : α} :
    b ∈ s.union t ↔ b ∈ s ∨ b ∈ t := by
  rw [union, mem_insertAll, mem_toList_iff, or_comm]

theorem ext_mem [DecidableEq α] {s t : OrderedSet α} (h : ∀ a, a ∈ s ↔ a ∈ t) : s = t := by
  obtain ⟨m⟩ := s
  obtain ⟨n⟩ := t
  congr
  apply OrderedMap.ext_get?
  intro a
  have h := h a
  simp only [mem_iff, contains, OrderedMap.contains] at h
  cases hm : m.get? a <;> cases hn : n.get? a <;> simp_all

end Lawful

end OrderedSet

end Entail
