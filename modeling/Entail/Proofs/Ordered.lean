import Entail.Ordered.Index
import Entail.Ordered.Key
import Mathlib.Algebra.GroupWithZero.Nat
import Mathlib.Data.List.Nodup
/-!
# Ordered collections

What the buckets of an index hold after an element was filed or taken out, and sums over the entries
of a map.
-/

namespace Entail

open Std

theorem eq_of_perm_of_ascending {α : Type} [Ord α] [TransOrd α] [LawfulEqOrd α] {l l' : List α}
    (h : l.Perm l') (hl : l.Pairwise fun a b => (compare a b).isLE = true)
    (hl' : l'.Pairwise fun a b => (compare a b).isLE = true) : l = l' :=
  List.Perm.eq_of_pairwise
    (fun _ _ _ _ hab hba => Std.compare_eq_iff_eq.1 (OrientedCmp.isLE_antisymm hab hba)) hl hl' h

theorem pairwise_ascending {α : Type} [Ord α] [TransOrd α] (l : List α) :
    (ascending l).Pairwise fun a b => (compare a b).isLE = true :=
  List.pairwise_mergeSort (fun _ _ _ => TransCmp.isLE_trans)
    (fun a b => by cases h : compare a b <;> simp [h, OrientedCmp.eq_swap (a := b)]) l

theorem ascending_eq_iff {α : Type} [Ord α] [TransOrd α] [LawfulEqOrd α] {l l' : List α} :
    ascending l = ascending l' ↔ l.Perm l' := by
  constructor
  · intro h
    calc l.Perm (ascending l) := (ascending_perm l).symm
      _ = ascending l' := h
      List.Perm _ l' := ascending_perm l'
  · intro h
    have hperm : (ascending l).Perm (ascending l') :=
      calc (ascending l).Perm l := ascending_perm l
        List.Perm _ l' := h
        List.Perm _ (ascending l') := (ascending_perm l').symm
    exact eq_of_perm_of_ascending hperm (pairwise_ascending l) (pairwise_ascending l')

theorem nodup_of_increasing {α : Type} [Ord α] [LawfulEqOrd α] {l : List α}
    (h : l.Pairwise fun a b => compare a b = .lt) : l.Nodup := by
  refine h.imp fun {a b} hlt heq => ?_
  rw [Std.compare_eq_iff_eq.2 heq] at hlt
  cases hlt

theorem eq_of_increasing {α : Type} [Ord α] [TransOrd α] [LawfulEqOrd α] {l l' : List α}
    (hl : l.Pairwise fun a b => compare a b = .lt) (hl' : l'.Pairwise fun a b => compare a b = .lt)
    (h : ∀ a, a ∈ l ↔ a ∈ l') : l = l' := by
  have hle : ∀ {a b : α}, compare a b = .lt → (compare a b).isLE = true :=
    fun hlt => by rw [hlt]; rfl
  have hperm : l.Perm l' :=
    (List.perm_ext_iff_of_nodup (nodup_of_increasing hl) (nodup_of_increasing hl')).2 h
  exact eq_of_perm_of_ascending hperm (hl.imp hle) (hl'.imp hle)

theorem OrderedSet.exists_mem_of_ne_empty {α : Type} [Ord α] [LawfulEqOrd α] {s : OrderedSet α}
    (h : s ≠ ∅) : ∃ a, a ∈ s := by
  cases hl : s.toList with
  | nil =>
      have hempty : s.isEmpty = true := by
        unfold toList OrderedMap.keys at hl
        rw [List.map_eq_nil_iff] at hl
        rw [isEmpty, OrderedMap.isEmpty, hl]
        rfl
      exact absurd (isEmpty_iff.1 hempty) h
  | cons a rest => exact ⟨a, mem_toList_iff.1 (hl ▸ List.mem_cons_self)⟩

theorem OrderedSet.mem_of_find?_eq_none {α : Type} [Ord α] {s : OrderedSet α} {l : List α}
    (h : (l.find? fun a => !s.contains a) = none) {a : α} (ha : a ∈ l) : a ∈ s := by
  have hnot := List.find?_eq_none.1 h a ha
  rw [Bool.not_eq_true, Bool.not_eq_false'] at hnot
  exact hnot

namespace OrderedMap

variable {κ ν : Type} [Ord κ]

/-- The sum of `f` over all entries. -/
def sumOver (m : OrderedMap κ ν) (f : κ → ν → Nat) : Nat :=
  (m.toList.map fun e => f e.1 e.2).sum

variable [LawfulEqOrd κ] {m : OrderedMap κ ν} {k : κ} {v : ν} {f : κ → ν → Nat}

theorem nodup_toList (m : OrderedMap κ ν) : m.toList.Nodup := by
  refine m.increasing.imp fun {a b} h hab => ?_
  rw [Std.compare_eq_iff_eq.2 (congrArg Prod.fst hab)] at h
  cases h

theorem nodup_keys (m : OrderedMap κ ν) : m.keys.Nodup :=
  nodup_of_increasing m.pairwise_keys

theorem forall_get?_insert [TransOrd κ] [DecidableEq κ] {P : κ → ν → Prop} (hnew : P k v)
    (hold : ∀ k' v', k' ≠ k → m.get? k' = some v' → P k' v') (k' : κ) (v' : ν)
    (h : (m.insert k v).get? k' = some v') : P k' v' := by
  rw [get?_insert] at h
  split at h
  · rename_i heq
    subst heq
    exact Option.some_inj.1 h ▸ hnew
  · rename_i hne
    exact hold k' v' (Ne.symm hne) h

theorem forall_get?_erase [TransOrd κ] [DecidableEq κ] {P : κ → ν → Prop}
    (hold : ∀ k' v', m.get? k' = some v' → P k' v') (k' : κ) (v' : ν)
    (h : (m.erase k).get? k' = some v') : P k' v' := by
  rw [get?_erase] at h
  split at h
  · cases h
  · exact hold k' v' h

theorem contains_insert [TransOrd κ] [DecidableEq κ] {k' : κ} :
    (m.insert k v).contains k' = true ↔ k' = k ∨ m.contains k' = true := by
  rw [contains, contains, get?_insert]
  split
  · rename_i heq
    exact iff_of_true rfl (Or.inl heq.symm)
  · rename_i hne
    exact (or_iff_right (Ne.symm hne)).symm

theorem contains_ofList [TransOrd κ] [DecidableEq κ] {l : List (κ × ν)} :
    (ofList l).contains k = true ↔ k ∈ l.map Prod.fst := by
  have hfold : ∀ m : OrderedMap κ ν, (l.foldl (fun m e => m.insert e.1 e.2) m).contains k = true ↔
      m.contains k = true ∨ k ∈ l.map Prod.fst := by
    induction l with
    | nil => simp
    | cons e rest ih =>
        intro m
        rw [List.foldl_cons, ih, contains_insert, List.map_cons, List.mem_cons, or_assoc]
        exact or_left_comm
  rw [ofList, hfold]
  exact or_iff_right Bool.false_ne_true

theorem erase_of_get?_none [TransOrd κ] [DecidableEq κ] (h : m.get? k = none) : m.erase k = m := by
  apply ext_get?
  intro k'
  rw [get?_erase]
  split
  · rename_i heq
    rw [← heq, h]
  · rfl

theorem sumOver_of_get? [DecidableEq κ] (h : m.get? k = some v) :
    m.sumOver f = f k v + (m.erase k).sumOver f := by
  have hperm : m.toList.Perm ((k, v) :: (m.erase k).toList) := by
    have hnot : (k, v) ∉ (m.erase k).toList := by
      rw [mem_toList_iff, get?_erase_self]
      exact nofun
    rw [List.perm_ext_iff_of_nodup m.nodup_toList
      (List.nodup_cons.2 ⟨hnot, (m.erase k).nodup_toList⟩)]
    rintro ⟨k', v'⟩
    rw [List.mem_cons, mem_toList_iff, mem_toList_iff, get?_erase, Prod.mk.injEq]
    by_cases hk : k = k'
    · subst hk
      simp [h, eq_comm]
    · have hk' : k' ≠ k := fun heq => hk heq.symm
      simp [hk, hk']
  unfold sumOver
  rw [(hperm.map _).sum_nat, List.map_cons, List.sum_cons]

theorem sumOver_insert [TransOrd κ] [DecidableEq κ] (m : OrderedMap κ ν) (k : κ) (v : ν)
    (f : κ → ν → Nat) : (m.insert k v).sumOver f = f k v + (m.erase k).sumOver f := by
  have herase : (m.insert k v).erase k = m.erase k := by
    apply ext_get?
    intro k'
    rw [get?_erase, get?_erase, get?_insert]
    split
    · rfl
    · rfl
  rw [sumOver_of_get? (get?_insert_self m k v), herase]

theorem sumOver_congr {g : κ → ν → Nat} (h : ∀ k v, m.get? k = some v → f k v = g k v) :
    m.sumOver f = m.sumOver g :=
  congrArg List.sum (List.map_congr_left fun e he => h e.1 e.2 (mem_toList_iff.1 he))

theorem sumOver_pos_iff : 0 < m.sumOver f ↔ ∃ k v, m.get? k = some v ∧ 0 < f k v := by
  have hpos : ∀ l : List (κ × ν), 0 < (l.map fun e => f e.1 e.2).sum ↔
      ∃ e ∈ l, 0 < f e.1 e.2 := by
    intro l
    induction l with
    | nil => simp
    | cons e rest ih =>
        rw [List.map_cons, List.sum_cons, Nat.add_pos_iff_pos_or_pos, ih]
        simp
  rw [sumOver, hpos]
  constructor
  · rintro ⟨⟨k, v⟩, hmem, h⟩
    exact ⟨k, v, mem_toList_iff.1 hmem, h⟩
  · rintro ⟨k, v, hget, h⟩
    exact ⟨(k, v), mem_toList_iff.2 hget, h⟩

end OrderedMap

section Index

variable {κ α : Type} [Ord κ] [Ord α] [TransOrd κ] [LawfulEqOrd κ] [LawfulEqOrd α]
  [DecidableEq κ] [DecidableEq α] {i : Index κ α} {k k' : κ} {a b : α}

omit [LawfulEqOrd κ] [TransOrd κ] [LawfulEqOrd α] [DecidableEq κ] [DecidableEq α] in
theorem Index.not_mem_bucket_empty : a ∉ (∅ : Index κ α).bucket k :=
  OrderedSet.not_mem_empty a

theorem Index.mem_bucket_insert [TransOrd α] :
    b ∈ (i.insert k a).bucket k' ↔ b ∈ i.bucket k' ∨ (k = k' ∧ b = a) := by
  rw [Index.bucket_insert]
  by_cases hk : k = k'
  · subst hk
    rw [if_pos rfl, OrderedSet.mem_insert, or_comm, eq_comm]
    simp
  · simp [hk]

theorem Index.mem_bucket_erase :
    b ∈ (i.erase k a).bucket k' ↔ b ∈ i.bucket k' ∧ ¬ (k = k' ∧ b = a) := by
  rw [Index.bucket_erase]
  by_cases hk : k = k'
  · subst hk
    rw [if_pos rfl, OrderedSet.mem_erase, and_comm, ne_comm]
    simp
  · simp [hk]

omit [TransOrd κ] [DecidableEq κ] [DecidableEq α] in
theorem Index.mem_toList_iff : a ∈ i.toList ↔ ∃ k, a ∈ i.bucket k := by
  constructor
  · intro h
    obtain ⟨bucket, hbucket, ha⟩ := List.mem_flatMap.1 h
    obtain ⟨⟨k, _⟩, hentry, rfl⟩ := List.mem_map.1 hbucket
    refine ⟨k, ?_⟩
    rw [Index.bucket, OrderedMap.mem_toList_iff.1 hentry]
    exact OrderedSet.mem_toList_iff.1 ha
  · rintro ⟨k, ha⟩
    rw [Index.bucket] at ha
    cases hget : i.buckets.get? k with
    | none =>
        rw [hget] at ha
        exact absurd ha (OrderedSet.not_mem_empty a)
    | some bucket =>
        rw [hget] at ha
        exact List.mem_flatMap.2 ⟨bucket, List.mem_map.2 ⟨(k, bucket), OrderedMap.mem_toList_iff.2 hget,
          rfl⟩, OrderedSet.mem_toList_iff.2 ha⟩

omit [TransOrd κ] [DecidableEq κ] [DecidableEq α] in
theorem Index.nodup_toList (h : ∀ k k' a, a ∈ i.bucket k → a ∈ i.bucket k' → k = k') :
    i.toList.Nodup := by
  have hbucket : ∀ e ∈ i.buckets.toList, i.bucket e.1 = e.2 := by
    intro e he
    rw [Index.bucket, OrderedMap.mem_toList_iff.1 he]
    rfl
  rw [Index.toList, OrderedMap.values, List.flatMap_map, List.nodup_flatMap]
  refine ⟨fun e _ => OrderedSet.nodup_toList e.2, ?_⟩
  refine i.buckets.increasing.imp_of_mem fun {e e'} he he' hlt a ha ha' => ?_
  have hkey : e.1 = e'.1 := by
    refine h e.1 e'.1 a ?_ ?_
    · rw [hbucket e he]
      exact OrderedSet.mem_toList_iff.1 ha
    · rw [hbucket e' he']
      exact OrderedSet.mem_toList_iff.1 ha'
  rw [Std.compare_eq_iff_eq.2 hkey] at hlt
  cases hlt

/-- No bucket is empty. -/
def Index.IsTidy (i : Index κ α) : Prop :=
  ∀ k b, i.buckets.get? k = some b → b ≠ ∅

omit [TransOrd κ] [LawfulEqOrd κ] [LawfulEqOrd α] [DecidableEq κ] [DecidableEq α] in
theorem Index.isTidy_empty : (∅ : Index κ α).IsTidy :=
  fun _ _ => nofun

theorem Index.IsTidy.insert [TransOrd α] (h : i.IsTidy) (k : κ) (a : α) :
    (i.insert k a).IsTidy := by
  refine OrderedMap.forall_get?_insert (fun hempty => ?_) (fun k' b _ hb => h k' b hb)
  have ha : a ∈ (i.bucket k).insert a := OrderedSet.mem_insert.2 (Or.inl rfl)
  rw [hempty] at ha
  exact OrderedSet.not_mem_empty a ha

omit [LawfulEqOrd α] [DecidableEq α] in
theorem Index.IsTidy.erase (h : i.IsTidy) (k : κ) (a : α) : (i.erase k a).IsTidy := by
  rw [Index.erase]
  split
  · exact OrderedMap.forall_get?_erase h
  · rename_i hne
    exact OrderedMap.forall_get?_insert (fun hempty => hne (OrderedSet.isEmpty_iff.2 hempty))
      (fun k' b _ hb => h k' b hb)

omit [DecidableEq κ] in
/-- Indices without empty buckets are what they hold under each key. -/
theorem Index.IsTidy.ext [TransOrd α] {j : Index κ α} (hi : i.IsTidy) (hj : j.IsTidy)
    (h : ∀ k a, a ∈ i.bucket k ↔ a ∈ j.bucket k) : i = j := by
  have hnone : ∀ {i j : Index κ α}, j.IsTidy → (∀ k a, a ∈ i.bucket k ↔ a ∈ j.bucket k) →
      ∀ k, i.buckets.get? k = none → j.buckets.get? k = none := by
    intro i j hj h k hk
    cases hget : j.buckets.get? k with
    | none => rfl
    | some b =>
        obtain ⟨a, ha⟩ := OrderedSet.exists_mem_of_ne_empty (hj k b hget)
        have hmem : a ∈ i.bucket k := by
          rw [h, Index.bucket, hget]
          exact ha
        rw [Index.bucket, hk] at hmem
        exact absurd hmem (OrderedSet.not_mem_empty a)
  have hbuckets : i.buckets = j.buckets := by
    apply OrderedMap.ext_get?
    intro k
    cases hget : i.buckets.get? k with
    | none => exact (hnone hj h k hget).symm
    | some b =>
        cases hget' : j.buckets.get? k with
        | none =>
            have hback := hnone hi (fun k a => (h k a).symm) k hget'
            rw [hget] at hback
            cases hback
        | some b' =>
            refine congrArg some (OrderedSet.ext_mem fun a => ?_)
            have hmem := h k a
            rw [Index.bucket, Index.bucket, hget, hget'] at hmem
            exact hmem
  cases i
  cases j
  exact congrArg Index.mk hbuckets

end Index

end Entail
