import Entail.Proofs.Except
import Entail.Proofs.Ordered
import Entail.Rules.Support
/-!
# Support

Support counts conclusions: raising and lowering add and subtract, a count of zero is not kept, and
the lists of raised and lowered quads mention every quad that came to be supported or lost a support.
-/

namespace Entail.Support

variable {s : Support} {byRule : String → Quad → Nat} {total : Quad → Nat} {id : String}
  {qs : List Quad}

/-- The entry of a count: none for zero. -/
def noted (n : Nat) : Option Nat :=
  if n = 0 then none else some n

theorem getD_noted (n : Nat) : (noted n).getD 0 = n := by
  unfold noted
  split
  · rename_i h
    exact h.symm
  · rfl

theorem noted_pos {n m : Nat} (h : noted n = some m) : 0 < m := by
  unfold noted at h
  split at h
  · cases h
  · rename_i hn
    exact Option.some_inj.1 h ▸ Nat.pos_of_ne_zero hn

/-- The counts that the support holds. -/
structure Accounts (s : Support) (byRule : String → Quad → Nat) (total : Quad → Nat) : Prop where
  byRule_eq : ∀ id q, s.byRule.get? (id, q) = noted (byRule id q)
  totals_eq : ∀ q, s.totals.get? q = noted (total q)

theorem accounts_empty : empty.Accounts (fun _ _ => 0) fun _ => 0 :=
  ⟨fun _ _ => rfl, fun _ => rfl⟩

theorem Accounts.total_eq (h : s.Accounts byRule total) (q : Quad) : s.total q = total q := by
  rw [Support.total, h.totals_eq, getD_noted]

theorem Accounts.fromRule_eq (h : s.Accounts byRule total) (id : String) (q : Quad) :
    s.fromRule id q = byRule id q := by
  rw [fromRule, h.byRule_eq, getD_noted]

theorem Accounts.congr {byRule' : String → Quad → Nat} {total' : Quad → Nat}
    (h : s.Accounts byRule total) (hb : ∀ id q, byRule id q = byRule' id q)
    (ht : ∀ q, total q = total' q) : s.Accounts byRule' total' := by
  have hb' : byRule = byRule' := funext fun id => funext (hb id)
  have ht' : total = total' := funext ht
  rw [← hb', ← ht']
  exact h

theorem Accounts.settled (h : s.Accounts byRule total) : s.settled.Accounts byRule total :=
  ⟨h.byRule_eq, h.totals_eq⟩

/-- The counts after `qs` were concluded by rule `id` once more. -/
def plus (byRule : String → Quad → Nat) (id : String) (qs : List Quad) (id' : String) (q : Quad) :
    Nat :=
  byRule id' q + if id' = id then qs.count q else 0

/-- The counts after `qs` were concluded by rule `id` once less. -/
def minus (byRule : String → Quad → Nat) (id : String) (qs : List Quad) (id' : String) (q : Quad) :
    Nat :=
  byRule id' q - if id' = id then qs.count q else 0

/-! ## Raising -/

private theorem noted_succ (n : Nat) : noted (n + 1) = some (n + 1) :=
  if_neg (Nat.succ_ne_zero n)

private theorem Accounts.raise (h : s.Accounts byRule total) (id : String) (q : Quad) :
    (s.raise id q).Accounts (plus byRule id [q]) fun q' => total q' + [q].count q' := by
  refine ⟨fun id' q' => ?_, fun q' => ?_⟩
  · rw [Support.raise, OrderedMap.get?_insert, h.fromRule_eq]
    by_cases hk : (id, q) = (id', q')
    · obtain ⟨rfl, rfl⟩ := Prod.mk.inj hk
      rw [if_pos rfl, plus, if_pos rfl, List.count_singleton_self, noted_succ]
    · rw [if_neg hk, h.byRule_eq, plus]
      by_cases hid : id' = id
      · have hq : q ≠ q' := fun heq => hk (by rw [hid, heq])
        rw [if_pos hid, List.count_singleton, if_neg (by simpa using hq), Nat.add_zero]
      · rw [if_neg hid, Nat.add_zero]
  · rw [Support.raise, OrderedMap.get?_insert, h.total_eq]
    by_cases hq : q = q'
    · subst hq
      rw [if_pos rfl, List.count_singleton_self, noted_succ]
    · rw [if_neg hq, h.totals_eq, List.count_singleton, if_neg (by simpa using hq), Nat.add_zero]

private theorem plus_plus (byRule : String → Quad → Nat) (id : String) (q : Quad) (rest : List Quad)
    (id' : String) (q' : Quad) :
    plus (plus byRule id [q]) id rest id' q' = plus byRule id (q :: rest) id' q' := by
  have hcons : (q :: rest).count q' = [q].count q' + rest.count q' := by
    rw [← List.count_append]
    rfl
  unfold plus
  rw [hcons]
  split <;> omega

/-- Raising adds to the counts, and notes the quads that had no support before. -/
theorem Accounts.raiseAll (h : s.Accounts byRule total) (id : String) (qs : List Quad) :
    (s.raiseAll id qs).Accounts (plus byRule id qs) (fun q => total q + qs.count q) ∧
      (s.raiseAll id qs).lowered = s.lowered ∧
      (∀ q ∈ s.raised, q ∈ (s.raiseAll id qs).raised) ∧
      (∀ q ∈ (s.raiseAll id qs).raised, q ∈ s.raised ∨ q ∈ qs) ∧
      ∀ q ∈ qs, total q = 0 → q ∈ (s.raiseAll id qs).raised := by
  induction qs generalizing s byRule total with
  | nil =>
      have hsame : ∀ id' q, byRule id' q = plus byRule id [] id' q := by
        intro id' q
        unfold plus
        split <;> rfl
      refine ⟨h.congr hsame fun _ => rfl, rfl, fun _ hq => hq, fun _ hq => Or.inl hq, ?_⟩
      intro q hq
      cases hq
  | cons q rest ih =>
      obtain ⟨hacc, hlow, hkeep, hfrom, hnote⟩ := ih (h.raise id q)
      have hstep : (s.raiseAll id (q :: rest)) = (s.raise id q).raiseAll id rest := rfl
      have hraised : (s.raise id q).raised = if total q = 0 then s.raised ++ [q] else s.raised := by
        rw [Support.raise, h.total_eq]
      rw [hstep]
      refine ⟨hacc.congr (plus_plus byRule id q rest) fun q' => ?_, hlow, fun q' hq' => ?_,
        fun q' hq' => ?_, fun q' hq' hzero => ?_⟩
      · have hcons : (q :: rest).count q' = [q].count q' + rest.count q' := by
          rw [← List.count_append]
          rfl
        rw [hcons, Nat.add_assoc]
      · apply hkeep
        rw [hraised]
        split
        · exact List.mem_append_left _ hq'
        · exact hq'
      · rcases hfrom q' hq' with hmem | hmem
        · rw [hraised] at hmem
          split at hmem
          · rcases List.mem_append.1 hmem with hmem | hmem
            · exact Or.inl hmem
            · exact Or.inr (List.mem_cons.2 (Or.inl (List.mem_singleton.1 hmem)))
          · exact Or.inl hmem
        · exact Or.inr (List.mem_cons_of_mem _ hmem)
      · by_cases heq : q' = q
        · subst heq
          apply hkeep
          rw [hraised, if_pos hzero]
          exact List.mem_append_right _ (List.mem_singleton_self _)
        · refine hnote q' ((List.mem_cons.1 hq').resolve_left heq) ?_
          rw [hzero, List.count_singleton, if_neg (by simpa using Ne.symm heq)]

/-! ## Lowering -/

private theorem get?_decrement {κ : Type} [Ord κ] [Std.TransOrd κ] [Std.LawfulEqOrd κ]
    [DecidableEq κ] {counts : OrderedMap κ Nat} {k : κ} {n : Nat}
    (h : counts.get? k = noted n) (hn : 0 < n) :
    ∃ counts', decrement counts k = some counts' ∧
      ∀ k', counts'.get? k' = if k = k' then noted (n - 1) else counts.get? k' := by
  have hsome : counts.get? k = some n := by
    rw [h, noted, if_neg (Nat.ne_of_gt hn)]
  rw [decrement, hsome, Option.map_some]
  split
  · rename_i hle
    refine ⟨_, rfl, fun k' => ?_⟩
    have hone : n - 1 = 0 := by omega
    rw [OrderedMap.get?_erase, hone]
    rfl
  · rename_i hlt
    refine ⟨_, rfl, fun k' => ?_⟩
    rw [OrderedMap.get?_insert, noted, if_neg (by omega : ¬ n - 1 = 0)]

private theorem Accounts.lower (h : s.Accounts byRule total) {q : Quad} (hrule : 0 < byRule id q)
    (htotal : 0 < total q) :
    ∃ s', s.lower id q = .ok s' ∧
      s'.Accounts (minus byRule id [q]) (fun q' => total q' - [q].count q') ∧
      s'.raised = s.raised ∧ s'.lowered = s.lowered ++ [q] := by
  obtain ⟨counts, hcounts, hget⟩ := get?_decrement (h.byRule_eq id q) hrule
  obtain ⟨totals, htotals, hget'⟩ := get?_decrement (h.totals_eq q) htotal
  refine ⟨⟨counts, totals, s.raised, s.lowered ++ [q]⟩, ?_, ⟨fun id' q' => ?_, fun q' => ?_⟩,
    rfl, rfl⟩
  · rw [Support.lower, hcounts, htotals]
  · rw [hget, minus]
    by_cases hk : (id, q) = (id', q')
    · obtain ⟨rfl, rfl⟩ := Prod.mk.inj hk
      rw [if_pos rfl, if_pos rfl, List.count_singleton_self]
    · rw [if_neg hk, h.byRule_eq]
      by_cases hid : id' = id
      · have hq : q ≠ q' := fun heq => hk (by rw [hid, heq])
        rw [if_pos hid, List.count_singleton, if_neg (by simpa using hq), Nat.sub_zero]
      · rw [if_neg hid, Nat.sub_zero]
  · rw [hget']
    by_cases hq : q = q'
    · subst hq
      rw [if_pos rfl, List.count_singleton_self]
    · rw [if_neg hq, h.totals_eq, List.count_singleton, if_neg (by simpa using hq), Nat.sub_zero]

private theorem minus_minus (byRule : String → Quad → Nat) (id : String) (q : Quad)
    (rest : List Quad) (id' : String) (q' : Quad) :
    minus (minus byRule id [q]) id rest id' q' = minus byRule id (q :: rest) id' q' := by
  have hcons : (q :: rest).count q' = [q].count q' + rest.count q' := by
    rw [← List.count_append]
    rfl
  unfold minus
  rw [hcons]
  split <;> omega

/-- Lowering subtracts from counts that are large enough, and notes every quad. -/
theorem Accounts.lowerAll (h : s.Accounts byRule total)
    (hrule : ∀ q, qs.count q ≤ byRule id q) (htotal : ∀ q, qs.count q ≤ total q) :
    ∃ s', s.lowerAll id qs = .ok s' ∧
      s'.Accounts (minus byRule id qs) (fun q => total q - qs.count q) ∧
      s'.raised = s.raised ∧ s'.lowered = s.lowered ++ qs := by
  induction qs generalizing s byRule total with
  | nil =>
      refine ⟨s, rfl, h.congr (fun id' q => ?_) fun q => rfl, rfl, (List.append_nil _).symm⟩
      unfold minus
      split <;> rfl
  | cons q rest ih =>
      have hcons : ∀ q', (q :: rest).count q' = [q].count q' + rest.count q' := by
        intro q'
        rw [← List.count_append]
        rfl
      have hself : [q].count q = 1 := List.count_singleton_self
      have hrule₁ : 0 < byRule id q := by
        have := hrule q
        rw [hcons] at this
        omega
      have htotal₁ : 0 < total q := by
        have := htotal q
        rw [hcons] at this
        omega
      obtain ⟨s₁, h₁, hacc₁, hr₁, hl₁⟩ := h.lower hrule₁ htotal₁
      have hrule₂ : ∀ q', rest.count q' ≤ minus byRule id [q] id q' := by
        intro q'
        have := hrule q'
        rw [hcons] at this
        rw [minus, if_pos rfl]
        omega
      have htotal₂ : ∀ q', rest.count q' ≤ total q' - [q].count q' := by
        intro q'
        have := htotal q'
        rw [hcons] at this
        omega
      obtain ⟨s₂, h₂, hacc₂, hr₂, hl₂⟩ := ih hacc₁ hrule₂ htotal₂
      refine ⟨s₂, ?_, hacc₂.congr (minus_minus byRule id q rest) fun q' => ?_,
        hr₂.trans hr₁, ?_⟩
      · have h₂' : List.foldlM (fun s q => s.lower id q) s₁ rest = .ok s₂ := h₂
        rw [Support.lowerAll, List.foldlM_cons, h₁, Result.ok_bind, h₂']
      · rw [hcons]
        omega
      · rw [hl₂, hl₁, List.append_assoc]
        rfl

end Entail.Support
