import Entail.Network.Solutions
import Entail.Proofs.Network.Count
import Entail.Proofs.Network.Scope
import Entail.Proofs.Store.Feed
/-!
# Counted solutions

Solutions that count the outputs of a condition list each set of bindings once, with the number of
outputs that share it. One quad that comes or goes never lets an output go and another with the same
bindings come, so no solution is retracted and announced again.
-/

namespace Entail

variable {ev : Evaluator} {c : Condition} {held held' : Quad → Prop} {b : Bindings}

/-! ## Solutions of a condition -/

/-- Some output has the bindings `b`. -/
def Condition.IsSolution (ev : Evaluator) (c : Condition) (held : Quad → Prop) (b : Bindings) :
    Prop :=
  ∃ t, c.IsOutput ev held t ∧ t.bindings = b

/-- The solutions in order, each of them once for every output that has its bindings. -/
structure Condition.IsAnswer (ev : Evaluator) (c : Condition) (held : Quad → Prop)
    (bag : List Bindings) : Prop where
  sorted : bag.Pairwise fun a b => (compare a b).isLE = true
  count : ∀ b, IsCount (fun t => c.IsOutput ev held t ∧ t.bindings = b) (bag.count b)

namespace Condition

theorem IsAnswer.unique {bag bag' : List Bindings} (h : c.IsAnswer ev held bag)
    (h' : c.IsAnswer ev held bag') : bag = bag' := by
  have hperm : bag.Perm bag' := List.perm_iff_count.2 fun b => (h.count b).unique (h'.count b)
  exact eq_of_perm_of_ascending hperm h.sorted h'.sorted

private theorem IsMatch.of_mono {t t' : Token} (h : c.IsMatch held t) (h' : c.IsMatch held' t')
    (heq : t.bindings = t'.bindings) (hsub : ∀ q, held q → held' q) : c.IsMatch held' t :=
  ⟨fun q hq => hsub q (h.1 q hq), h.2.fits, h.2.binds, heq ▸ h'.2.unblocked⟩

private theorem IsOutput.of_mono {t t' : Token} (h : c.IsOutput ev held t)
    (h' : c.IsOutput ev held' t') (heq : t.bindings = t'.bindings)
    (hsub : ∀ q, held q → held' q) : c.IsOutput ev held' t := by
  cases ha : c.aggregation with
  | none =>
      rw [isOutput_of_none ha] at h h' ⊢
      exact h.of_mono h' heq hsub
  | some a =>
      rw [isOutput_of_some ha] at h h'
      -- rows carry no quads, so they are told apart by their bindings
      obtain rfl : t = t' := by
        cases t; cases t'
        obtain rfl := facts_of_isRow h
        obtain rfl := facts_of_isRow h'
        exact congrArg (Token.mk · []) heq
      exact (isOutput_of_some ha).2 h'

/-- After a single change, an output that is new and one that is gone differ in their bindings. -/
theorem IsOutput.bindings_ne {change : Change Quad} {t t' : Token}
    (hgone : c.IsOutput ev held t ∧ ¬ c.IsOutput ev (change.step held) t)
    (hnew : c.IsOutput ev (change.step held) t' ∧ ¬ c.IsOutput ev held t') :
    t.bindings ≠ t'.bindings := by
  intro heq
  cases change with
  | gained q => exact hgone.2 (hgone.1.of_mono hnew.1 heq fun _ => Or.inl)
  | lost q => exact hnew.2 (hnew.1.of_mono hgone.1 heq.symm fun _ hx => hx.1)

end Condition

/-! ## Counting -/

namespace Solutions

variable {s : Solutions} {out old new : Token → Prop}

/-- Every set of bindings is counted as often as a token of `out` has it, and none is kept that no
token has. -/
structure Counts (s : Solutions) (out : Token → Prop) : Prop where
  count : ∀ b, IsCount (fun t => out t ∧ t.bindings = b) ((s.support.get? b).getD 0)
  pos : ∀ b n, s.support.get? b = some n → 0 < n

/-- Some token of `out` has the bindings `b`. -/
def Shows (out : Token → Prop) (b : Bindings) : Prop :=
  ∃ t, out t ∧ t.bindings = b

theorem counts_empty : empty.Counts fun _ => False where
  count _ := IsCount.zero_iff.2 fun _ ht => ht.1
  pos _ _ h := nomatch h

theorem Counts.contains_iff (h : s.Counts out) : s.support.contains b = true ↔ Shows out b := by
  have hcount := (h.count b).pos_iff
  rw [OrderedMap.contains_iff]
  constructor
  · rintro ⟨n, hn⟩
    rw [hn] at hcount
    exact hcount.1 (h.pos b n hn)
  · intro hb
    cases hget : s.support.get? b with
    | none =>
        rw [hget] at hcount
        exact absurd (hcount.2 hb) (Nat.lt_irrefl 0)
    | some n => exact ⟨n, rfl⟩

theorem Counts.mem_toList_iff (h : s.Counts out) : b ∈ s.toList ↔ Shows out b := by
  rw [toList, OrderedMap.mem_keys_iff, h.contains_iff]

theorem nodup_toList (s : Solutions) : s.toList.Nodup :=
  s.support.nodup_keys

theorem Counts.ext {s' : Solutions} (h : s.Counts old) (h' : s'.Counts new)
    (heq : ∀ b n, IsCount (fun t => old t ∧ t.bindings = b) n ↔
      IsCount (fun t => new t ∧ t.bindings = b) n) : s = s' := by
  have hget : ∀ b, s.support.get? b = s'.support.get? b := by
    intro b
    have hcount : (s.support.get? b).getD 0 = (s'.support.get? b).getD 0 :=
      ((heq b _).1 (h.count b)).unique (h'.count b)
    have hpos := h.pos b
    have hpos' := h'.pos b
    cases hb : s.support.get? b with
    | none =>
        cases hb' : s'.support.get? b with
        | none => rfl
        | some n =>
            rw [hb, hb'] at hcount
            exact absurd hcount (Nat.ne_of_lt (hpos' n hb'))
    | some n =>
        cases hb' : s'.support.get? b with
        | none =>
            rw [hb, hb'] at hcount
            exact absurd hcount.symm (Nat.ne_of_lt (hpos n hb))
        | some n' =>
            rw [hb, hb'] at hcount
            exact congrArg some hcount
  cases s
  cases s'
  exact congrArg Solutions.mk (OrderedMap.ext_get? hget)

private theorem step_iff_of_bindings_ne {change : Change Token}
    (hne : change.value.bindings ≠ b) (t : Token) :
    (out t ∧ t.bindings = b) ↔ (change.step out t ∧ t.bindings = b) := by
  refine and_congr_left fun ht => ?_
  have hother : t ≠ change.value := by
    rintro rfl
    exact hne ht
  rw [Change.step_iff_of_ne hother]

private theorem Counts.replace {change : Change Token} (h : s.Counts out)
    {support : OrderedMap Bindings Nat}
    (hother : ∀ b, change.value.bindings ≠ b → support.get? b = s.support.get? b)
    (hcount : IsCount (fun t => change.step out t ∧ t.bindings = change.value.bindings)
      ((support.get? change.value.bindings).getD 0))
    (hpos : ∀ n, support.get? change.value.bindings = some n → 0 < n) :
    Counts ⟨support⟩ (change.step out) := by
  refine ⟨fun b => ?_, fun b n hn => ?_⟩
  · by_cases hb : change.value.bindings = b
    · subst hb
      exact hcount
    · rw [hother b hb]
      exact (h.count b).congr (step_iff_of_bindings_ne hb)
  · by_cases hb : change.value.bindings = b
    · subst hb
      exact hpos n hn
    · have hn' : support.get? b = some n := hn
      rw [hother b hb] at hn'
      exact h.pos b n hn'

private theorem shows_step_iff_of_ne {change : Change Token} (hb : b ≠ change.value.bindings) :
    Shows out b ↔ Shows (change.step out) b :=
  exists_congr (step_iff_of_bindings_ne hb.symm)

private theorem Counts.gained_spec {t : Token} (h : s.Counts out) (ht : ¬ out t) :
    ∃ changes s', s.receive (.gained t) = .ok (changes, s') ∧
      s'.Counts ((Change.gained t).step out) ∧
      Alters changes (Shows out) (Shows ((Change.gained t).step out)) := by
  have hcount := (h.count t.bindings).add (a := t) fun ht' => ht ht'.1
  have hshows : Shows ((Change.gained t).step out) t.bindings := ⟨t, Or.inr rfl, rfl⟩
  refine ⟨_, _, rfl, h.replace (fun b hb => ?_) ?_ fun n hn => ?_, ?_⟩
  · rw [OrderedMap.get?_insert]
    exact if_neg hb
  · simp only [Change.value, OrderedMap.get?_insert_self, Option.getD_some]
    refine hcount.congr fun x => ?_
    constructor
    · rintro (⟨hx, heq⟩ | rfl)
      · exact ⟨Or.inl hx, heq⟩
      · exact ⟨Or.inr rfl, rfl⟩
    · rintro ⟨hx | hx, heq⟩
      · exact Or.inl ⟨hx, heq⟩
      · exact Or.inr hx
  · simp only [Change.value, OrderedMap.get?_insert_self, Option.some_inj] at hn
    omega
  · have hzero := (h.count t.bindings).pos_iff
    by_cases hn : (s.support.get? t.bindings).getD 0 = 0
    · rw [if_pos hn]
      rw [hn] at hzero
      exact .of_gained (fun hb => Nat.lt_irrefl 0 (hzero.2 hb)) hshows
        fun b hb => shows_step_iff_of_ne hb
    · rw [if_neg hn]
      refine .of_iff fun b => ?_
      by_cases hb : b = t.bindings
      · subst hb
        exact iff_of_true (hzero.1 (Nat.pos_of_ne_zero hn)) hshows
      · exact shows_step_iff_of_ne hb

private theorem Counts.lost_spec {t : Token} (h : s.Counts out) (ht : out t) :
    ∃ changes s', s.receive (.lost t) = .ok (changes, s') ∧
      s'.Counts ((Change.lost t).step out) ∧
      Alters changes (Shows out) (Shows ((Change.lost t).step out)) := by
  have hshows : Shows out t.bindings := ⟨t, ht, rfl⟩
  obtain ⟨n, hn⟩ := OrderedMap.contains_iff.1 (h.contains_iff.2 hshows)
  have hcount := h.count t.bindings
  rw [hn, Option.getD_some] at hcount
  obtain ⟨k, rfl, hk⟩ := hcount.sub (a := t) ⟨ht, rfl⟩
  have hk' : IsCount (fun x => (Change.lost t).step out x ∧ x.bindings = t.bindings) k :=
    hk.congr fun x => and_right_comm
  have hother : ∀ b, b ≠ t.bindings → (Shows out b ↔ Shows ((Change.lost t).step out) b) :=
    fun b hb => shows_step_iff_of_ne hb
  by_cases hle : k = 0
  · subst hle
    have hgone : ¬ Shows ((Change.lost t).step out) t.bindings :=
      fun ⟨x, hx⟩ => IsCount.zero_iff.1 hk' x hx
    refine ⟨[.lost t.bindings], ⟨s.support.erase t.bindings⟩, ?_, ?_, .of_lost hshows hgone hother⟩
    · simp only [receive, hn]
      rfl
    · refine h.replace (fun b hb => ?_) ?_ fun n hn => ?_
      · rw [OrderedMap.get?_erase]
        exact if_neg hb
      · simp only [Change.value, OrderedMap.get?_erase_self, Option.getD_none]
        exact hk'
      · simp only [Change.value, OrderedMap.get?_erase_self] at hn
        cases hn
  · refine ⟨[], ⟨s.support.insert t.bindings k⟩, ?_, ?_, .of_iff fun b => ?_⟩
    · have hmore : ¬ k + 1 ≤ 1 := by omega
      simp only [receive, hn, if_neg hmore]
      rfl
    · refine h.replace (fun b hb => ?_) ?_ fun n hn => ?_
      · rw [OrderedMap.get?_insert]
        exact if_neg hb
      · simp only [Change.value, OrderedMap.get?_insert_self, Option.getD_some]
        exact hk'
      · simp only [Change.value, OrderedMap.get?_insert_self, Option.some_inj] at hn
        omega
    · by_cases hb : b = t.bindings
      · subst hb
        exact iff_of_true hshows (hk'.pos_iff.1 (Nat.pos_of_ne_zero hle))
      · exact hother b hb

theorem Counts.receive_spec {change : Change Token} (h : s.Counts out)
    (hfresh : change.IsFresh out) :
    ∃ changes s', s.receive change = .ok (changes, s') ∧ s'.Counts (change.step out) ∧
      Alters changes (Shows out) (Shows (change.step out)) := by
  cases change with
  | gained t => exact h.gained_spec hfresh
  | lost t => exact h.lost_spec hfresh

/-- If no bindings are both lost with one token and gained with another, what comes out is the
difference between the solutions. -/
theorem Counts.receiveAll_spec {incoming : List (Change Token)} (h : s.Counts old)
    (hincoming : Alters incoming old new)
    (hside : ∀ t t', .lost t ∈ incoming → .gained t' ∈ incoming → t.bindings ≠ t'.bindings) :
    ∃ changes s', s.receiveAll incoming = .ok (changes, s') ∧ s'.Counts new ∧
      Alters changes (Shows old) (Shows new) := by
  induction incoming generalizing s old with
  | nil =>
      have hold : old = new := by
        funext t
        exact propext (hincoming.iff_of_nil t)
      subst hold
      exact ⟨[], s, rfl, h, .nil _⟩
  | cons change rest ih =>
      obtain ⟨hfresh, hrest⟩ := hincoming.cons
      obtain ⟨first, s₁, h₁, hcounts₁, halters₁⟩ := h.receive_spec hfresh
      obtain ⟨more, s₂, h₂, hcounts₂, halters₂⟩ := ih hcounts₁ hrest fun t t' ht ht' =>
        hside t t' (List.mem_cons_of_mem _ ht) (List.mem_cons_of_mem _ ht')
      refine ⟨first ++ more, s₂, ?_, hcounts₂, halters₁.append halters₂ fun b hb => ?_⟩
      · exact runStage_cons h₁ h₂
      · -- only the solution of the first token has changed, and the rest does not change it back
        have hvalue : b = change.value.bindings := by
          by_contra hne
          exact hb (shows_step_iff_of_ne hne)
        subst hvalue
        cases change with
        | gained t =>
            have ht : new t := ((hincoming.gained_iff t).1 List.mem_cons_self).1
            exact iff_of_true ⟨t, Or.inr rfl, rfl⟩ ⟨t, ht, rfl⟩
        | lost t =>
            have ht : Shows old t.bindings := ⟨t, hfresh, rfl⟩
            have hmid : ¬ Shows ((Change.lost t).step old) t.bindings :=
              fun hmid => hb (iff_of_true ht hmid)
            refine iff_of_false hmid ?_
            rintro ⟨t', ht', heq⟩
            have hgained : .gained t' ∈ rest :=
              (hrest.gained_iff t').2 ⟨ht', fun hold => hmid ⟨t', hold, heq⟩⟩
            exact hside t t' List.mem_cons_self (List.mem_cons_of_mem _ hgained) heq.symm

/-! ## Bags -/

theorem sorted_bag (s : Solutions) : s.bag.Pairwise fun a b => (compare a b).isLE = true := by
  rw [bag, List.pairwise_flatMap]
  refine ⟨fun e _ => ?_, s.support.increasing.imp fun {e f} h x hx y hy => ?_⟩
  · rw [List.pairwise_replicate]
    exact Or.inr Std.ReflCmp.isLE_rfl
  · rw [List.eq_of_mem_replicate hx, List.eq_of_mem_replicate hy, h]
    rfl

theorem count_bag (s : Solutions) (b : Bindings) :
    s.bag.count b = (s.support.get? b).getD 0 := by
  have hsum : s.bag.count b = s.support.sumOver fun a n => (List.replicate n a).count b := by
    rw [bag, List.count_flatMap]
    rfl
  have hother : ∀ m : OrderedMap Bindings Nat, m.get? b = none →
      (m.sumOver fun a n => (List.replicate n a).count b) = 0 := by
    intro m hm
    refine Nat.eq_zero_of_not_pos fun h => ?_
    obtain ⟨a, n, ha, hpos⟩ := OrderedMap.sumOver_pos_iff.1 h
    obtain rfl := List.eq_of_mem_replicate (List.count_pos_iff.1 hpos)
    rw [hm] at ha
    cases ha
  rw [hsum]
  cases hget : s.support.get? b with
  | none => exact hother _ hget
  | some n =>
      rw [OrderedMap.sumOver_of_get? hget, List.count_replicate_self,
        hother _ (OrderedMap.get?_erase_self _ _)]
      rfl

theorem Counts.isAnswer (h : s.Counts (c.IsOutput ev held)) : c.IsAnswer ev held s.bag where
  sorted := s.sorted_bag
  count b := s.count_bag b ▸ h.count b

end Solutions

end Entail
