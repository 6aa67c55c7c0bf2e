import Entail.Evaluator
import Entail.Proofs.Except
import Mathlib.Algebra.BigOperators.Group.List.Basic
import Mathlib.Algebra.Ring.Int.Defs
import Mathlib.Data.List.Forall2
import Mathlib.Data.List.Perm.Subperm
/-!
# Sums

The sum of a group's integers is added up in the order of the members, and every sum on the way has to
fit. So the answer may depend on the order, but only on whether there is one: an integer is the exact
sum in any case.
-/

namespace Entail

namespace Number

/-- The integer is in the range of 64 bits. -/
def Fits (i : Int) : Prop :=
  Int64.minValue.toInt ≤ i ∧ i ≤ Int64.maxValue.toInt

instance (i : Int) : Decidable (Fits i) :=
  inferInstanceAs (Decidable (_ ∧ _))

/-- Every sum on the way from `s` through the list is in range. -/
def RunFits (s : Int) : List Int → Prop
  | [] => Fits s
  | x :: rest => Fits s ∧ RunFits (s + x) rest

instance decidableRunFits : (s : Int) → (xs : List Int) → Decidable (RunFits s xs)
  | s, [] => inferInstanceAs (Decidable (Fits s))
  | s, x :: rest =>
    have := decidableRunFits (s + x) rest
    inferInstanceAs (Decidable (Fits s ∧ RunFits (s + x) rest))

variable {i s : Int} {xs ys : List Int}

theorem fits_toInt (n : Int64) : Fits n.toInt :=
  ⟨Int64.minValue_le_toInt n, Int.le_of_lt_add_one n.toInt_lt⟩

theorem exists_int64? (h : Fits i) : ∃ n, int64? i = some n ∧ n.toInt = i :=
  ⟨_, if_pos h, toInt_of_int64? (if_pos h)⟩

theorem int64?_of_not_fits (h : ¬ Fits i) : int64? i = none :=
  if_neg h

theorem RunFits.start (h : RunFits s xs) : Fits s := by
  cases xs with
  | nil => exact h
  | cons x rest => exact h.1

theorem RunFits.sum_of_append (h : RunFits s (xs ++ ys)) : Fits (s + xs.sum) := by
  induction xs generalizing s with
  | nil => exact (Int.add_zero s).symm ▸ h.start
  | cons x rest ih =>
      rw [List.sum_cons, ← Int.add_assoc]
      exact ih h.2

theorem RunFits.sum (h : RunFits s xs) : Fits (s + xs.sum) := by
  rw [← List.append_nil xs] at h
  exact h.sum_of_append

/-- The sum of the positive elements: no sum on the way is larger. -/
def gains (xs : List Int) : Int :=
  (xs.filter (0 < ·)).sum

/-- The sum of the negative elements: no sum on the way is smaller. -/
def losses (xs : List Int) : Int :=
  (xs.filter (· < 0)).sum

theorem gains_cons (x : Int) (xs : List Int) : gains (x :: xs) = max x 0 + gains xs := by
  unfold gains
  by_cases hx : 0 < x
  · rw [List.filter_cons_of_pos (by simpa using hx), List.sum_cons]
    omega
  · rw [List.filter_cons_of_neg (by simpa using hx)]
    omega

theorem losses_cons (x : Int) (xs : List Int) : losses (x :: xs) = min x 0 + losses xs := by
  unfold losses
  by_cases hx : x < 0
  · rw [List.filter_cons_of_pos (by simpa using hx), List.sum_cons]
    omega
  · rw [List.filter_cons_of_neg (by simpa using hx)]
    omega

theorem gains_nonneg (xs : List Int) : 0 ≤ gains xs := by
  induction xs with
  | nil => exact Int.le_refl 0
  | cons x rest ih =>
      rw [gains_cons]
      omega

theorem losses_nonpos (xs : List Int) : losses xs ≤ 0 := by
  induction xs with
  | nil => exact Int.le_refl 0
  | cons x rest ih =>
      rw [losses_cons]
      omega

theorem sum_eq (xs : List Int) : xs.sum = gains xs + losses xs := by
  induction xs with
  | nil => rfl
  | cons x rest ih =>
      rw [gains_cons, losses_cons, List.sum_cons, ih]
      omega

theorem runFits_of_bounds (hgains : Fits (s + gains xs)) (hlosses : Fits (s + losses xs)) :
    RunFits s xs := by
  induction xs generalizing s with
  | nil => exact Int.add_zero s ▸ hgains
  | cons x rest ih =>
      have hpos := gains_nonneg rest
      have hneg := losses_nonpos rest
      rw [gains_cons] at hgains
      rw [losses_cons] at hlosses
      obtain ⟨hlow, hhigh⟩ := hgains
      obtain ⟨hlow', hhigh'⟩ := hlosses
      refine ⟨⟨by omega, by omega⟩, ih ⟨by omega, by omega⟩ ⟨by omega, by omega⟩⟩

theorem gains_eq_zero (h : ∀ x ∈ xs, x ≤ 0) : gains xs = 0 := by
  rw [gains, List.filter_eq_nil_iff.2 fun x hx => by simpa using h x hx]
  rfl

theorem losses_eq_zero (h : ∀ x ∈ xs, 0 ≤ x) : losses xs = 0 := by
  rw [losses, List.filter_eq_nil_iff.2 fun x hx => by simpa using h x hx]
  rfl

/-- If the sum fits, there is an order in which all sums on the way do: as long as it is possible, one
adds a number of the other sign. -/
theorem exists_perm_runFits (hs : Fits s) (hxs : ∀ x ∈ xs, Fits x) (hsum : Fits (s + xs.sum)) :
    ∃ ys, ys.Perm xs ∧ RunFits s ys := by
  induction hlen : xs.length using Nat.strongRecOn generalizing s xs with
  | _ n ih =>
  by_cases hother : ∃ x ∈ xs, (s ≤ 0 ∧ 0 ≤ x) ∨ (0 ≤ s ∧ x ≤ 0)
  · obtain ⟨x, hx, hsign⟩ := hother
    have hperm : xs.Perm (x :: xs.erase x) := List.perm_cons_erase hx
    have hstep : Fits (s + x) := by
      obtain ⟨hlow, hhigh⟩ := hs
      obtain ⟨hlow', hhigh'⟩ := hxs x hx
      exact ⟨by omega, by omega⟩
    have hrest : Fits (s + x + (xs.erase x).sum) := by
      rw [hperm.sum_eq, List.sum_cons, ← Int.add_assoc] at hsum
      exact hsum
    have hlt : (xs.erase x).length < n := by
      rw [List.length_erase_of_mem hx, hlen]
      exact Nat.sub_lt (hlen ▸ List.length_pos_of_mem hx) Nat.one_pos
    obtain ⟨ys, hys, hfits⟩ := ih _ hlt hstep
      (fun y hy => hxs y (List.mem_of_mem_erase hy)) hrest rfl
    exact ⟨x :: ys, (hys.cons x).trans hperm.symm, hs, hfits⟩
  · -- all that is left has the sign of `s`, so that the sums only move towards the last one
    refine ⟨xs, .refl xs, ?_⟩
    rw [sum_eq] at hsum
    by_cases hneg : s ≤ 0
    · have hgains : gains xs = 0 :=
        gains_eq_zero fun x hx => Int.le_of_not_le fun hle => hother ⟨x, hx, Or.inl ⟨hneg, hle⟩⟩
      rw [hgains, Int.zero_add] at hsum
      exact runFits_of_bounds (by rw [hgains, Int.add_zero]; exact hs) hsum
    · have hpos : 0 ≤ s := by omega
      have hlosses : losses xs = 0 :=
        losses_eq_zero fun x hx => Int.le_of_not_le fun hle => hother ⟨x, hx, Or.inr ⟨hpos, hle⟩⟩
      rw [hlosses, Int.add_zero] at hsum
      exact runFits_of_bounds hsum (by rw [hlosses, Int.add_zero]; exact hs)

theorem fits_of_forall_perm (h : ∀ ys, ys.Perm xs → RunFits 0 ys) :
    Fits (gains xs) ∧ Fits (losses xs) := by
  have hfirst : ∀ p : Int → Bool, Fits (xs.filter p).sum := by
    intro p
    have hfits := (h _ (List.filter_append_perm p xs)).sum_of_append
    rwa [Int.zero_add] at hfits
  exact ⟨hfirst _, hfirst _⟩

theorem gains_perm (h : ys.Perm xs) : gains ys = gains xs :=
  (h.filter _).sum_eq

theorem losses_perm (h : ys.Perm xs) : losses ys = losses xs :=
  (h.filter _).sum_eq

/-- The order makes no difference to whether the sums on the way fit, if the last one never fits or
the outermost ones always do; otherwise it does. -/
theorem runFits_perm_iff (hxs : ∀ x ∈ xs, Fits x) :
    (∀ ys, ys.Perm xs → (RunFits 0 ys ↔ RunFits 0 xs)) ↔
      ¬ Fits xs.sum ∨ Fits (gains xs) ∧ Fits (losses xs) := by
  constructor
  · intro h
    by_cases hsum : Fits xs.sum
    · obtain ⟨ys, hys, hfits⟩ := exists_perm_runFits (s := 0) (by decide) hxs
        (by rwa [Int.zero_add])
      have hall : ∀ zs, zs.Perm xs → RunFits 0 zs := fun zs hzs => (h zs hzs).2 ((h ys hys).1 hfits)
      exact Or.inr (fits_of_forall_perm hall)
    · exact Or.inl hsum
  · rintro (hsum | ⟨hgains, hlosses⟩) ys hys
    · have hnot : ∀ zs : List Int, zs.Perm xs → ¬ RunFits 0 zs := by
        intro zs hzs hfits
        have hfits' := hfits.sum
        rw [Int.zero_add, hzs.sum_eq] at hfits'
        exact hsum hfits'
      exact iff_of_false (hnot ys hys) (hnot xs (.refl xs))
    · have hall : ∀ zs : List Int, zs.Perm xs → RunFits 0 zs := by
        intro zs hzs
        apply runFits_of_bounds
        · rwa [Int.zero_add, gains_perm hzs]
        · rwa [Int.zero_add, losses_perm hzs]
      exact iff_of_true (hall ys hys) (hall xs (.refl xs))

end Number

/-! ## The fold -/

namespace AggregateFunction

open Number

variable {ns : List Int64}

theorem foldlM_add (acc : Int64) (ns : List Int64) :
    (RunFits acc.toInt (ns.map Int64.toInt) →
      ∃ n, (ns.map Value.integer).foldlM BinaryOp.add.arithmetic (.integer acc) = .ok (.integer n) ∧
        n.toInt = acc.toInt + (ns.map Int64.toInt).sum) ∧
    (¬ RunFits acc.toInt (ns.map Int64.toInt) →
      (ns.map Value.integer).foldlM BinaryOp.add.arithmetic (.integer acc) = .error .overflow) := by
  induction ns generalizing acc with
  | nil =>
      refine ⟨fun _ => ⟨acc, rfl, ?_⟩, fun h => absurd (fits_toInt acc) h⟩
      exact (Int.add_zero _).symm
  | cons n rest ih =>
      rw [List.map_cons, List.map_cons, List.foldlM_cons, List.sum_cons, ← Int.add_assoc]
      have hadd : BinaryOp.add.arithmetic (.integer acc) (.integer n) =
          Value.integerOrOverflow (int64? (acc.toInt + n.toInt)) := rfl
      rw [hadd]
      by_cases hfits : Fits (acc.toInt + n.toInt)
      · obtain ⟨m, hm, hmeq⟩ := exists_int64? hfits
        have hruns : RunFits acc.toInt (n.toInt :: rest.map Int64.toInt) ↔
            RunFits m.toInt (rest.map Int64.toInt) := by
          rw [hmeq]
          exact and_iff_right (fits_toInt acc)
        rw [hm, Value.integerOrOverflow, Result.ok_bind, ← hmeq, hruns]
        exact ih m
      · rw [int64?_of_not_fits hfits, Value.integerOrOverflow, Result.error_bind]
        exact ⟨fun h => absurd h.2.start hfits, fun _ => rfl⟩

end AggregateFunction

/-! ## Distinct values -/

namespace Aggregate

open Number

variable {ns ms : List Int64}

private theorem eraseDups_induction {P : List Int64 → Prop} (nil : P [])
    (cons : ∀ n rest, P (rest.filter fun m => !m == n) → P (n :: rest)) (l : List Int64) : P l := by
  induction hlen : l.length using Nat.strongRecOn generalizing l with
  | _ k ih =>
  cases l with
  | nil => exact nil
  | cons n rest =>
      have hlt : (rest.filter fun m => !m == n).length < k :=
        hlen ▸ Nat.lt_succ_of_le (List.length_filter_le _ rest)
      exact cons n rest (ih _ hlt _ rfl)

private theorem eraseDups_filter (p : Int64 → Bool) (l : List Int64) :
    (l.filter p).eraseDups = l.eraseDups.filter p := by
  induction l using eraseDups_induction with
  | nil => rfl
  | cons n rest ih =>
      rw [List.eraseDups_cons]
      by_cases hn : p n = true
      · rw [List.filter_cons_of_pos hn, List.filter_cons_of_pos hn, List.eraseDups_cons, ← ih,
          List.filter_comm]
      · have hsame : (rest.filter fun m => !m == n).filter p = rest.filter p := by
          rw [List.filter_filter]
          refine List.filter_congr fun m _ => ?_
          by_cases hm : m = n
          · simp [hm, hn]
          · simp [hm]
        rw [List.filter_cons_of_neg hn, List.filter_cons_of_neg hn, ← ih, hsame]

theorem nodup_eraseDups (l : List Int64) : l.eraseDups.Nodup := by
  induction l using eraseDups_induction with
  | nil => exact List.nodup_nil
  | cons n rest ih =>
      rw [List.eraseDups_cons]
      refine List.nodup_cons.2 ⟨fun hmem => ?_, ih⟩
      have hne := (List.mem_filter.1 (List.mem_eraseDups.1 hmem)).2
      simp at hne

private theorem toNode_integer_inj {m n : Int64}
    (h : (Value.integer m).toNode = (Value.integer n).toNode) : m = n := by
  injection h with h
  injection h with h
  have hchars : intChars m.toInt = intChars n.toInt := String.ofList_injective h
  have hread := readInt64?_intChars m
  rw [hchars, readInt64?_intChars] at hread
  exact (Option.some.inj hread).symm

theorem distinctValues_integers (ns : List Int64) :
    distinctValues (ns.map Value.integer) = ns.eraseDups.map Value.integer := by
  have hpairs : firstOfEach ((ns.map Value.integer).map fun v => (v.toNode, v)) =
      (ns.eraseDups.map Value.integer).map fun v => (v.toNode, v) := by
    induction ns with
    | nil => rfl
    | cons n rest ih =>
        have hsame : ∀ m ∈ rest.eraseDups,
            (((fun pair : Node × Value => pair.1 != (Value.integer n).toNode) ∘
              fun v : Value => (v.toNode, v)) ∘ Value.integer) m = !m == n := by
          intro m _
          by_cases hm : m = n
          · simp [hm]
          · have hne : (Value.integer m).toNode ≠ (Value.integer n).toNode :=
              fun heq => hm (toNode_integer_inj heq)
            rw [beq_eq_false_iff_ne.2 hm]
            exact bne_iff_ne.2 hne
        rw [List.map_cons, List.map_cons, firstOfEach, ih, List.eraseDups_cons, List.filter_map,
          List.filter_map, eraseDups_filter, List.filter_congr hsame]
        rfl
  rw [distinctValues, hpairs, List.map_map]
  exact List.map_id _

/-! ## The sum of a group -/

/-- The integers that are added up. -/
def summands (a : Aggregate) (ns : List Int64) : List Int64 :=
  if a.distinct then ns.eraseDups else ns

variable {evaluate : Expression → Bindings → Except Error Value} {a : Aggregate} {e : Expression}
  {members : List Bindings}

/-- The argument has these integers as its values in the members. -/
def HasIntegers (evaluate : Expression → Bindings → Except Error Value) (e : Expression)
    (members : List Bindings) (ns : List Int64) : Prop :=
  List.Forall₂ (fun b n => evaluate e b = .ok (.integer n)) members ns

private theorem mapM_of_hasIntegers (h : HasIntegers evaluate e members ns) :
    members.mapM (evaluate e) = .ok (ns.map Value.integer) := by
  induction h with
  | nil => rfl
  | cons hb _ ih =>
      rw [List.mapM_cons, hb, Result.ok_bind, ih]
      rfl

private theorem compute_sum (hfunction : a.function = .sum) (hargument : a.argument = some e)
    (h : HasIntegers evaluate e members ns) :
    a.compute evaluate members =
      AggregateFunction.total ((a.summands ns).map Value.integer) := by
  have hvalues : argumentValues evaluate .sum e members = .ok (ns.map Value.integer) := by
    rw [argumentValues, if_neg (by simp)]
    exact mapM_of_hasIntegers h
  rw [compute, hargument]
  simp only [hfunction, hvalues, Result.ok_bind, AggregateFunction.ofValues, summands]
  split
  · rw [distinctValues_integers]
  · rfl

private theorem eraseDups_eq_self {l : List Int64} (h : l.Nodup) : l.eraseDups = l := by
  induction l with
  | nil => rfl
  | cons n rest ih =>
      obtain ⟨hn, hrest⟩ := List.nodup_cons.1 h
      have hall : rest.filter (fun m => !m == n) = rest :=
        List.filter_eq_self.2 fun m hm => by simpa using fun heq : m = n => hn (heq ▸ hm)
      rw [List.eraseDups_cons, hall, ih hrest]

private theorem summands_perm (h : ms.Perm ns) : (a.summands ms).Perm (a.summands ns) := by
  unfold summands
  split
  · refine (List.perm_ext_iff_of_nodup (nodup_eraseDups ms) (nodup_eraseDups ns)).2 fun n => ?_
    rw [List.mem_eraseDups, List.mem_eraseDups, h.mem_iff]
  · exact h

private theorem exists_perm_summands {us : List Int64} (hus : us.Perm (a.summands ns)) :
    ∃ ms, ms.Perm ns ∧ a.summands ms = us := by
  unfold summands at hus ⊢
  split at hus
  · rename_i hdistinct
    have hnodup : us.Nodup := hus.nodup_iff.2 (nodup_eraseDups ns)
    have hmem : ∀ n, n ∈ us ↔ n ∈ ns := fun n => hus.mem_iff.trans List.mem_eraseDups
    -- the summands come first, and what is left repeats them
    obtain ⟨us', hus', hsub⟩ := hnodup.subperm fun n hn => (hmem n).1 hn
    obtain ⟨rest, hrest⟩ := hsub.exists_perm_append
    have hms : ns.Perm (us ++ rest) :=
      calc ns.Perm (us' ++ rest) := hrest
        List.Perm _ (us ++ rest) := hus'.append_right rest
    have hnone : rest.removeAll us = [] := by
      refine List.filter_eq_nil_iff.2 fun n hn => ?_
      have hin : n ∈ us := (hmem n).2 (hms.mem_iff.2 (List.mem_append_right us hn))
      simpa using hin
    refine ⟨us ++ rest, hms.symm, ?_⟩
    rw [if_pos hdistinct, List.eraseDups_append, hnone, eraseDups_eq_self hnodup]
    exact List.append_nil us
  · rename_i hdistinct
    refine ⟨us, hus, ?_⟩
    rw [if_neg hdistinct]

private theorem HasIntegers.exists_of_members {members' : List Bindings}
    (h : HasIntegers evaluate e members ns) (hmembers : members'.Perm members) :
    ∃ ms, HasIntegers evaluate e members' ms ∧ ms.Perm ns :=
  List.perm_comp_forall₂ hmembers h

private theorem HasIntegers.exists_of_integers (h : HasIntegers evaluate e members ns)
    (hms : ms.Perm ns) :
    ∃ members', HasIntegers evaluate e members' ms ∧ members'.Perm members := by
  obtain ⟨members', hall, hperm⟩ := List.perm_comp_forall₂ hms h.flip
  exact ⟨members', hall.flip, hperm⟩

private theorem compute_of_hasIntegers (hfunction : a.function = .sum)
    (hargument : a.argument = some e) (h : HasIntegers evaluate e members ns) :
    (RunFits 0 ((a.summands ns).map Int64.toInt) →
      ∃ n, a.compute evaluate members = .ok (.integer n) ∧
        n.toInt = ((a.summands ns).map Int64.toInt).sum) ∧
    (¬ RunFits 0 ((a.summands ns).map Int64.toInt) →
      a.compute evaluate members = .error .overflow) := by
  rw [compute_sum hfunction hargument h]
  obtain ⟨hok, herror⟩ := AggregateFunction.foldlM_add 0 (a.summands ns)
  refine ⟨fun hfits => ?_, herror⟩
  obtain ⟨n, hn, heq⟩ := hok hfits
  refine ⟨n, hn, ?_⟩
  calc n.toInt
      = 0 + ((a.summands ns).map Int64.toInt).sum := heq
    _ = ((a.summands ns).map Int64.toInt).sum := Int.zero_add _

private theorem exists_perm_of_map {us : List Int64} {ys : List Int}
    (h : ys.Perm (us.map Int64.toInt)) : ∃ vs : List Int64, vs.Perm us ∧ vs.map Int64.toInt = ys := by
  have hback : (us.map Int64.toInt).map Int64.ofInt = us := by
    rw [List.map_map]
    calc us.map (Int64.ofInt ∘ Int64.toInt)
        = us.map id := List.map_congr_left fun n _ => Int64.ofInt_toInt n
      _ = us := List.map_id us
  refine ⟨ys.map Int64.ofInt, hback ▸ h.map Int64.ofInt, ?_⟩
  rw [List.map_map]
  refine (List.map_congr_left fun y hy => ?_).trans (List.map_id ys)
  obtain ⟨n, -, rfl⟩ := List.mem_map.1 (h.mem_iff.1 hy)
  rw [Function.comp_apply, Int64.ofInt_toInt]
  rfl

private theorem forall_perm_iff (hfunction : a.function = .sum) (hargument : a.argument = some e)
    (h : HasIntegers evaluate e members ns) :
    (∀ members', members'.Perm members →
        a.compute evaluate members' = a.compute evaluate members) ↔
      ∀ ys, ys.Perm ((a.summands ns).map Int64.toInt) →
        (RunFits 0 ys ↔ RunFits 0 ((a.summands ns).map Int64.toInt)) := by
  have hcompute := compute_of_hasIntegers hfunction hargument h
  constructor
  · intro hall ys hys
    obtain ⟨us, hus, rfl⟩ := exists_perm_of_map hys
    obtain ⟨ms, hms, rfl⟩ := exists_perm_summands hus
    obtain ⟨members', hmembers', hperm⟩ := h.exists_of_integers hms
    have hcompute' := compute_of_hasIntegers hfunction hargument hmembers'
    rw [hall members' hperm] at hcompute'
    constructor
    · intro hfits
      by_contra hnot
      obtain ⟨n, hn, -⟩ := hcompute'.1 hfits
      rw [hcompute.2 hnot] at hn
      cases hn
    · intro hfits
      by_contra hnot
      obtain ⟨n, hn, -⟩ := hcompute.1 hfits
      rw [hcompute'.2 hnot] at hn
      cases hn
  · intro hall members' hperm
    obtain ⟨ms, hmembers', hms⟩ := h.exists_of_members hperm
    have hcompute' := compute_of_hasIntegers hfunction hargument hmembers'
    have hvalues : ((a.summands ms).map Int64.toInt).Perm ((a.summands ns).map Int64.toInt) :=
      (summands_perm hms).map _
    by_cases hfits : RunFits 0 ((a.summands ns).map Int64.toInt)
    · obtain ⟨n, hn, hsum⟩ := hcompute.1 hfits
      obtain ⟨m, hm, hsum'⟩ := hcompute'.1 ((hall _ hvalues).2 hfits)
      have heq : m = n := Int64.toInt_inj.1 (by rw [hsum, hsum', hvalues.sum_eq])
      rw [hn, hm, heq]
    · rw [hcompute.2 hfits, hcompute'.2 (mt (hall _ hvalues).1 hfits)]

/-- The sum of a group whose members all give integers is an integer if every sum on the way fits, and
an overflow otherwise. An integer is the exact sum, so that a sum which does not fit is an overflow in
any order. The order of the members makes no difference exactly if the sum does not fit, or both the
sum of the positive integers and that of the negative ones fit. -/
theorem sum_of_running_sums (hfunction : a.function = .sum) (hargument : a.argument = some e)
    (h : HasIntegers evaluate e members ns) :
    let xs := (a.summands ns).map Int64.toInt
    (RunFits 0 xs → Fits xs.sum ∧
      ∃ n, a.compute evaluate members = .ok (.integer n) ∧ n.toInt = xs.sum) ∧
    (¬ RunFits 0 xs → a.compute evaluate members = .error .overflow) ∧
    ((∀ members', members'.Perm members →
        a.compute evaluate members' = a.compute evaluate members) ↔
      ¬ Fits xs.sum ∨ Fits (gains xs) ∧ Fits (losses xs)) := by
  intro xs
  obtain ⟨hok, herror⟩ := compute_of_hasIntegers hfunction hargument h
  have hxs : ∀ x ∈ xs, Fits x := by
    intro x hx
    obtain ⟨n, -, rfl⟩ := List.mem_map.1 hx
    exact fits_toInt n
  refine ⟨fun hfits => ⟨Int.zero_add xs.sum ▸ hfits.sum, hok hfits⟩, herror, ?_⟩
  exact (forall_perm_iff hfunction hargument h).trans (runFits_perm_iff hxs)

private theorem evaluate_bound (v : Variable) {n : Int64}
    (hn : Value.ofNode (Value.toNode (.integer n)) = .integer n) :
    Evaluator.standard.evaluate (.variable v) (OrderedMap.insert ∅ v (Value.toNode (.integer n))) =
      .ok (.integer n) := by
  change Expression.evaluate _ (.variable v) = _
  rw [Expression.evaluate, OrderedMap.get?_insert_self]
  exact congrArg Except.ok hn

/-- Of the greatest integer, minus one, the greatest integer again and one, three are distinct: their
sum fits in this order, but not in any. -/
theorem distinct_sum_of_greatest :
    let v : Variable := ⟨"v"⟩
    let ns : List Int64 := [Int64.maxValue, -1, Int64.maxValue, 1]
    let members : List Bindings :=
      ns.map fun n => OrderedMap.insert ∅ v (Value.toNode (.integer n))
    let a : Aggregate := ⟨.sum, some (.variable v), true⟩
    HasIntegers Evaluator.standard.evaluate (.variable v) members ns ∧
      a.compute Evaluator.standard.evaluate members = .ok (.integer Int64.maxValue) ∧
      ¬ ∀ members', members'.Perm members →
        a.compute Evaluator.standard.evaluate members' =
          a.compute Evaluator.standard.evaluate members := by
  intro v ns members a
  have hintegers : HasIntegers Evaluator.standard.evaluate (.variable v) members ns :=
    .cons (evaluate_bound v (by rfl)) (.cons (evaluate_bound v (by rfl))
      (.cons (evaluate_bound v (by rfl)) (.cons (evaluate_bound v (by rfl)) .nil)))
  obtain ⟨hok, -, horder⟩ := sum_of_running_sums (by rfl : a.function = .sum) rfl hintegers
  obtain ⟨-, n, hn, hsum⟩ := hok (by decide)
  have hgreatest : n = Int64.maxValue := Int64.toInt_inj.1 (hsum.trans (by decide))
  exact ⟨hintegers, hgreatest ▸ hn, mt horder.1 (by decide)⟩

/-- The greatest integer, one and minus one have a sum that fits, and yet it is an overflow. -/
theorem sum_not_exact :
    ¬ ∀ (a : Aggregate) (e : Expression) (members : List Bindings) (ns : List Int64),
      a.function = .sum → a.argument = some e →
      HasIntegers Evaluator.standard.evaluate e members ns →
      Evaluator.standard.aggregate a members =
        Value.integerOrOverflow (int64? ((a.summands ns).map Int64.toInt).sum) := by
  intro hclaim
  let v : Variable := ⟨"v"⟩
  let ns : List Int64 := [Int64.maxValue, 1, -1]
  let members : List Bindings :=
    ns.map fun n => OrderedMap.insert ∅ v (Value.toNode (.integer n))
  have hintegers : HasIntegers Evaluator.standard.evaluate (.variable v) members ns :=
    .cons (evaluate_bound v (by rfl)) (.cons (evaluate_bound v (by rfl))
      (.cons (evaluate_bound v (by rfl)) .nil))
  let a : Aggregate := ⟨.sum, some (.variable v), false⟩
  have hsum : a.function = .sum := rfl
  have hexact := hclaim a _ members ns hsum rfl hintegers
  have hoverflow : Evaluator.standard.aggregate a members = .error .overflow :=
    (compute_of_hasIntegers hsum rfl hintegers).2 (by decide)
  rw [hoverflow] at hexact
  cases hexact

end Aggregate

end Entail
