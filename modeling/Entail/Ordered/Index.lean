import Entail.Ordered.Set
/-!
# Indices

A set of elements split into buckets by key, so that the elements under one key are found together.
A bucket that loses its last element is dropped.
-/

namespace Entail

open Std

variable {κ α : Type} [Ord κ] [Ord α]

/-- Elements of `α` filed under keys of `κ`. -/
structure Index (κ α : Type) [Ord κ] [Ord α] where
  buckets : OrderedMap κ (OrderedSet α)
deriving DecidableEq

namespace Index

def empty : Index κ α := ⟨.empty⟩

instance : EmptyCollection (Index κ α) := ⟨empty⟩

instance : Inhabited (Index κ α) := ⟨empty⟩

/-- The elements filed under `k`. -/
def bucket (i : Index κ α) (k : κ) : OrderedSet α :=
  (i.buckets.get? k).getD ∅

/-- Every element, bucket by bucket. -/
def toList (i : Index κ α) : List α :=
  i.buckets.values.flatMap OrderedSet.toList

def contains (i : Index κ α) (k : κ) (a : α) : Bool :=
  (i.bucket k).contains a

variable [TransOrd κ] [LawfulEqOrd κ]

def insert [TransOrd α] [LawfulEqOrd α] (i : Index κ α) (k : κ) (a : α) : Index κ α :=
  ⟨i.buckets.insert k ((i.bucket k).insert a)⟩

def erase (i : Index κ α) (k : κ) (a : α) : Index κ α :=
  if ((i.bucket k).erase a).isEmpty then ⟨i.buckets.erase k⟩
  else ⟨i.buckets.insert k ((i.bucket k).erase a)⟩

theorem bucket_insert [DecidableEq κ] [TransOrd α] [LawfulEqOrd α] (i : Index κ α) (k : κ) (a : α)
    (k' : κ) :
    (i.insert k a).bucket k' = if k = k' then (i.bucket k).insert a else i.bucket k' := by
  by_cases h : k = k' <;> simp [bucket, insert, OrderedMap.get?_insert, h]

theorem bucket_erase [DecidableEq κ] (i : Index κ α) (k : κ) (a : α) (k' : κ) :
    (i.erase k a).bucket k' = if k = k' then (i.bucket k).erase a else i.bucket k' := by
  by_cases hempty : ((i.bucket k).erase a).isEmpty = true
  · rw [erase, if_pos hempty]
    by_cases h : k = k'
    · rw [if_pos h, OrderedSet.isEmpty_iff.1 hempty, bucket, OrderedMap.get?_erase, if_pos h]
      rfl
    · simp [bucket, OrderedMap.get?_erase, h]
  · rw [erase, if_neg hempty]
    by_cases h : k = k'
    · rw [if_pos h, bucket, OrderedMap.get?_insert, if_pos h]
      rfl
    · simp [bucket, OrderedMap.get?_insert, h]

end Index

end Entail
