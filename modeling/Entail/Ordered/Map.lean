import Entail.Ordered.Key
/-!
# Ordered maps

A finite map kept as the strictly increasing list of its keys with their values. Two maps with the
same look-ups are the same map, and listing a map lists it in key order.
-/

namespace Entail

open Std

variable {κ ν μ : Type} [Ord κ]

/-- A finite map from `κ` to `ν`, listed by increasing key. -/
structure OrderedMap (κ ν : Type) [Ord κ] where
  toList : List (κ × ν)
  increasing : toList.Pairwise fun a b => compare a.1 b.1 = .lt
deriving DecidableEq

namespace OrderedMap

def empty : OrderedMap κ ν := ⟨[], .nil⟩

instance : EmptyCollection (OrderedMap κ ν) := ⟨empty⟩

instance : Inhabited (OrderedMap κ ν) := ⟨empty⟩

def get? (m : OrderedMap κ ν) (k : κ) : Option ν :=
  (m.toList.find? fun e => compare e.1 k == .eq).map (·.2)

def contains (m : OrderedMap κ ν) (k : κ) : Bool :=
  (m.get? k).isSome

def keys (m : OrderedMap κ ν) : List κ :=
  m.toList.map (·.1)

def values (m : OrderedMap κ ν) : List ν :=
  m.toList.map (·.2)

def size (m : OrderedMap κ ν) : Nat :=
  m.toList.length

def isEmpty (m : OrderedMap κ ν) : Bool :=
  m.toList.isEmpty

@[simp] theorem get?_empty (k : κ) : (empty : OrderedMap κ ν).get? k = none := rfl

theorem contains_iff {m : OrderedMap κ ν} {k : κ} :
    m.contains k = true ↔ ∃ v, m.get? k = some v := by
  simp [contains, Option.isSome_iff_exists]

theorem pairwise_keys (m : OrderedMap κ ν) : m.keys.Pairwise fun a b => compare a b = .lt := by
  simpa [keys, List.pairwise_map] using m.increasing

/-- Maps are compared by their entries, the first difference deciding. -/
instance [Ord ν] : Ord (OrderedMap κ ν) := ordByKey toList

instance [TransOrd κ] [Ord ν] [TransOrd ν] : TransOrd (OrderedMap κ ν) :=
  transOrd_ordByKey toList

instance [LawfulEqOrd κ] [Ord ν] [LawfulEqOrd ν] : LawfulEqOrd (OrderedMap κ ν) :=
  lawfulEqOrd_ordByKey fun m n h => by cases m; cases n; simp_all

theorem isEmpty_iff {m : OrderedMap κ ν} : m.isEmpty = true ↔ m = empty := by
  obtain ⟨l, hl⟩ := m
  simp [isEmpty, empty]

private def insertEntry (k : κ) (v : ν) : List (κ × ν) → List (κ × ν)
  | [] => [(k, v)]
  | e :: rest =>
    match compare k e.1 with
    | .lt => (k, v) :: e :: rest
    | .eq => (k, v) :: rest
    | .gt => e :: insertEntry k v rest

private theorem mem_insertEntry {k : κ} {v : ν} {l : List (κ × ν)} {e : κ × ν}
    (h : e ∈ insertEntry k v l) : e = (k, v) ∨ e ∈ l := by
  induction l with
  | nil => simpa [insertEntry] using h
  | cons f rest ih => grind [insertEntry]

section Lawful

variable [TransOrd κ] [LawfulEqOrd κ]

private theorem pairwise_insertEntry (k : κ) (v : ν) {l : List (κ × ν)}
    (h : l.Pairwise fun a b => compare a.1 b.1 = .lt) :
    (insertEntry k v l).Pairwise fun a b => compare a.1 b.1 = .lt := by
  induction l with
  | nil => simp [insertEntry]
  | cons f rest ih =>
    have hf : ∀ a ∈ rest, compare f.1 a.1 = .lt := fun _ => List.rel_of_pairwise_cons h
    unfold insertEntry
    split
    · rename_i hlt
      refine List.Pairwise.cons (fun e he => ?_) h
      rcases List.mem_cons.1 he with rfl | he
      · exact hlt
      · exact TransCmp.lt_trans hlt (hf _ he)
    · rename_i heq
      rw [LawfulEqCmp.compare_eq_iff_eq] at heq
      exact List.Pairwise.cons (fun e he => heq ▸ hf _ he) h.of_cons
    · rename_i hgt
      refine List.Pairwise.cons (fun e he => ?_) (ih h.of_cons)
      rcases mem_insertEntry he with rfl | he
      · exact OrientedCmp.gt_iff_lt.1 hgt
      · exact hf _ he

/-- The value at `k` becomes `v`, whether or not `k` had one. -/
def insert (m : OrderedMap κ ν) (k : κ) (v : ν) : OrderedMap κ ν :=
  ⟨insertEntry k v m.toList, pairwise_insertEntry k v m.increasing⟩

end Lawful

def erase (m : OrderedMap κ ν) (k : κ) : OrderedMap κ ν :=
  ⟨m.toList.filter fun e => compare e.1 k != .eq, m.increasing.filter _⟩

/-- Keep the entries that satisfy `p`. -/
def filter (m : OrderedMap κ ν) (p : κ → ν → Bool) : OrderedMap κ ν :=
  ⟨m.toList.filter fun e => p e.1 e.2, m.increasing.filter _⟩

/-- Apply `f` to every value. -/
def mapValues (m : OrderedMap κ ν) (f : ν → μ) : OrderedMap κ μ :=
  ⟨m.toList.map fun e => (e.1, f e.2), by
    rw [List.pairwise_map]
    exact m.increasing⟩

section Lookup

variable [LawfulEqOrd κ]

theorem mem_toList_iff {m : OrderedMap κ ν} {k : κ} {v : ν} :
    (k, v) ∈ m.toList ↔ m.get? k = some v := by
  obtain ⟨l, hl⟩ := m
  unfold get?
  induction l with
  | nil => simp
  | cons e rest ih =>
    have he : ∀ a ∈ rest, compare e.1 a.1 = .lt := fun _ => List.rel_of_pairwise_cons hl
    have ih := ih hl.of_cons
    simp only [List.mem_cons, List.find?_cons]
    by_cases hk : e.1 = k
    · subst hk
      have hnot : (e.1, v) ∉ rest := fun hm => by
        have := he _ hm
        simp [ReflCmp.compare_self] at this
      simp [hnot, Prod.ext_iff, eq_comm]
    · have hcmp : (compare e.1 k == .eq) = false := by
        simpa [LawfulEqCmp.compare_eq_iff_eq] using hk
      rw [hcmp]
      simp only
      rw [← ih]
      constructor
      · rintro (h | h)
        · exact absurd (congrArg Prod.fst h).symm hk
        · exact h
      · exact Or.inr

theorem get?_erase [DecidableEq κ] (m : OrderedMap κ ν) (k k' : κ) :
    (m.erase k).get? k' = if k = k' then none else m.get? k' := by
  apply Option.ext
  intro v
  rw [← mem_toList_iff]
  by_cases h : k = k'
  · subst h
    simp [erase]
  · simp only [erase, List.mem_filter, mem_toList_iff, h, if_false]
    have : ¬ k' = k := fun h' => h h'.symm
    simp [LawfulEqCmp.compare_eq_iff_eq, this]

@[simp] theorem get?_erase_self [DecidableEq κ] (m : OrderedMap κ ν) (k : κ) :
    (m.erase k).get? k = none := by
  simp [get?_erase]

theorem get?_filter (m : OrderedMap κ ν) (p : κ → ν → Bool) (k : κ) :
    (m.filter p).get? k = (m.get? k).filter (p k) := by
  apply Option.ext
  intro v
  rw [← mem_toList_iff]
  simp [filter, mem_toList_iff]

theorem get?_mapValues (m : OrderedMap κ ν) (f : ν → μ) (k : κ) :
    (m.mapValues f).get? k = (m.get? k).map f := by
  apply Option.ext
  intro v
  rw [← mem_toList_iff]
  simp only [mapValues, List.mem_map, Option.map_eq_some_iff, Prod.exists, Prod.mk.injEq]
  constructor
  · rintro ⟨a, b, hm, rfl, rfl⟩
    exact ⟨b, mem_toList_iff.1 hm, rfl⟩
  · rintro ⟨b, hb, rfl⟩
    exact ⟨k, b, mem_toList_iff.2 hb, rfl, rfl⟩

theorem mem_keys_iff {m : OrderedMap κ ν} {k : κ} : k ∈ m.keys ↔ m.contains k = true := by
  simp [keys, contains_iff, mem_toList_iff]

end Lookup

section Lawful

variable [TransOrd κ] [LawfulEqOrd κ]

/-- Later pairs win over earlier ones. -/
def ofList (l : List (κ × ν)) : OrderedMap κ ν :=
  l.foldl (fun m e => m.insert e.1 e.2) empty

private theorem find?_insertEntry [DecidableEq κ] (k : κ) (v : ν) (l : List (κ × ν)) (k' : κ)
    (hl : l.Pairwise fun a b => compare a.1 b.1 = .lt) :
    ((insertEntry k v l).find? fun e => compare e.1 k' == .eq).map (·.2) =
      if k = k' then some v else (l.find? fun e => compare e.1 k' == .eq).map (·.2) := by
  induction l with
  | nil =>
    by_cases h : k = k' <;> simp [insertEntry, h, LawfulEqCmp.compare_eq_iff_eq]
  | cons e rest ih =>
    have ih := ih hl.of_cons
    unfold insertEntry
    split
    · by_cases h : k = k'
      · simp [h]
      · simp [h, LawfulEqCmp.compare_eq_iff_eq]
    · rename_i heq
      rw [LawfulEqCmp.compare_eq_iff_eq] at heq
      by_cases h : k = k'
      · simp [h]
      · simp [h, ← heq, LawfulEqCmp.compare_eq_iff_eq]
    · rename_i hgt
      simp only [List.find?_cons]
      by_cases h : k = k'
      · subst h
        have hne : (compare e.1 k == .eq) = false := by
          have := OrientedCmp.gt_iff_lt.1 hgt
          simp [this]
        simp only [hne, ih, if_true]
      · cases hc : compare e.1 k' == .eq
        · simp only [ih, h, if_false]
        · simp [h]

theorem get?_insert [DecidableEq κ] (m : OrderedMap κ ν) (k : κ) (v : ν) (k' : κ) :
    (m.insert k v).get? k' = if k = k' then some v else m.get? k' :=
  find?_insertEntry k v m.toList k' m.increasing

@[simp] theorem get?_insert_self [DecidableEq κ] (m : OrderedMap κ ν) (k : κ) (v : ν) :
    (m.insert k v).get? k = some v := by
  simp [get?_insert]

theorem ext_get? {m n : OrderedMap κ ν} (h : ∀ k, m.get? k = n.get? k) : m = n := by
  have hmem : ∀ e, e ∈ m.toList ↔ e ∈ n.toList := fun e => by
    rw [show e = (e.1, e.2) from rfl, mem_toList_iff, mem_toList_iff, h]
  obtain ⟨l, hl⟩ := m
  obtain ⟨l', hl'⟩ := n
  simp only at hmem
  congr
  clear h
  induction l generalizing l' with
  | nil =>
    cases l' with
    | nil => rfl
    | cons f rest => exact absurd ((hmem f).2 List.mem_cons_self) List.not_mem_nil
  | cons e rest ih =>
    cases l' with
    | nil => exact absurd ((hmem e).1 List.mem_cons_self) List.not_mem_nil
    | cons f rest' =>
      have irrefl : ∀ a : κ × ν, ¬ compare a.1 a.1 = .lt := fun a => by
        simp [ReflCmp.compare_self]
      have asymm : ∀ a b : κ × ν, compare a.1 b.1 = .lt → ¬ compare b.1 a.1 = .lt :=
        fun a b hab hba => irrefl a (TransCmp.lt_trans hab hba)
      have hef : e = f := by
        rcases List.mem_cons.1 ((hmem e).1 List.mem_cons_self) with h | h
        · exact h
        · rcases List.mem_cons.1 ((hmem f).2 List.mem_cons_self) with h' | h'
          · exact h'.symm
          · exact absurd (List.rel_of_pairwise_cons hl' h)
              (asymm _ _ (List.rel_of_pairwise_cons hl h'))
      subst hef
      rw [ih hl.of_cons rest' hl'.of_cons]
      intro g
      have hg := hmem g
      constructor
      · intro hgr
        rcases List.mem_cons.1 (hg.1 (List.mem_cons_of_mem _ hgr)) with rfl | h
        · exact absurd (List.rel_of_pairwise_cons hl hgr) (irrefl _)
        · exact h
      · intro hgr
        rcases List.mem_cons.1 (hg.2 (List.mem_cons_of_mem _ hgr)) with rfl | h
        · exact absurd (List.rel_of_pairwise_cons hl' hgr) (irrefl _)
        · exact h

end Lawful

end OrderedMap

end Entail
