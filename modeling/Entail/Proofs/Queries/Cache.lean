import Entail.Queries.Cache
/-!
# Cache entries

A cache only ever holds values that were put into it, each under its own key: inserting adds one entry
or none, and looking up changes hit counts and ranks.
-/

namespace Entail.ResultCache

variable {κ ν : Type} {c : ResultCache κ ν} {k : κ} {v : ν} {l : List (CacheEntry κ ν)}
  {P : κ → ν → Prop}

/-- Every value has the property `P` together with its key. -/
def All (P : κ → ν → Prop) (l : List (CacheEntry κ ν)) : Prop :=
  ∀ e ∈ l, P e.key e.value

theorem All.insert (h : All P c.entries) (hv : P k v) : All P (c.insert k v).2.entries := by
  have hadd : ∀ l : List (CacheEntry κ ν), All P l → All P (l ++ [⟨k, v, 1⟩]) := by
    intro l hl e he
    rcases List.mem_append.1 he with he | he
    · exact hl e he
    · obtain rfl := List.mem_singleton.1 he
      exact hv
  rw [ResultCache.insert]
  split
  · exact h
  · split
    · exact hadd _ h
    · exact hadd _ fun e he => h e (List.dropLast_subset _ he)

variable [DecidableEq κ]

private theorem All.count (h : All P l) (k : κ) : All P (count k l) := by
  induction l with
  | nil => exact h
  | cons e rest ih =>
      obtain ⟨he, hrest⟩ := List.forall_mem_cons.1 h
      rw [ResultCache.count]
      split
      · exact List.forall_mem_cons.2 ⟨he, hrest⟩
      · exact List.forall_mem_cons.2 ⟨he, ih hrest⟩

/-- The entry of `k` stays where it is, or it changes places with an entry that has fewer hits. -/
theorem promote_cases (k : κ) (l : List (CacheEntry κ ν)) :
    promote k l = l ∨ ∃ front e f back, l = front ++ e :: f :: back ∧
      promote k l = front ++ f :: e :: back ∧ f.key = k ∧ e.hits < f.hits := by
  fun_induction promote k l with
  | case1 => exact Or.inl rfl
  | case2 e f rest _ hk hlt => exact Or.inr ⟨[], e, f, rest, rfl, rfl, hk, hlt⟩
  | case3 => exact Or.inl rfl
  | case4 d d' rest _ _ ih =>
      obtain heq | ⟨front, e, f, back, hl, hpromote, hk, hlt⟩ := ih
      · exact Or.inl (congrArg (d :: ·) heq)
      · exact Or.inr ⟨d :: front, e, f, back, congrArg (d :: ·) hl, congrArg (d :: ·) hpromote, hk,
          hlt⟩
  | case5 => exact Or.inl rfl

theorem promote_perm (k : κ) (l : List (CacheEntry κ ν)) : (promote k l).Perm l := by
  obtain heq | ⟨front, e, f, back, hl, hpromote, -, -⟩ := promote_cases k l
  · rw [heq]
  · rw [hl] at hpromote ⊢
    rw [hpromote]
    exact (List.Perm.swap e f back).append_left front

theorem All.probe (h : All P c.entries) (k : κ) : All P (c.probe k).2.entries :=
  fun e he => h.count k e ((promote_perm k _).mem_iff.1 he)

theorem All.get? (h : All P c.entries) (hget : c.get? k = some v) : P k v := by
  obtain ⟨e, he, rfl⟩ := Option.map_eq_some_iff.1 hget
  have hkey := List.find?_some he
  exact of_decide_eq_true hkey ▸ h e (List.mem_of_find?_eq_some he)

end Entail.ResultCache
