import Entail.Expression.Operations
import Entail.Proofs.Except
import Entail.Proofs.Number.Rounding
/-!
# Exactness of arithmetic

Arithmetic on integers is exact, or reports that it cannot be: unless the least integer is divided by
minus one. Its quotient does not fit, but it is given as a decimal.
-/

namespace Entail

open Number

variable {v w : Value} {a c : Int64} {x y : Float}

/-! ## One operation -/

namespace Operation

variable {o : Operation}

def IsNumeric : Operation → Prop
  | negation v => v.type.isNumeric = true
  | binary op v w => op.IsArithmetic ∧ v.type.isNumeric = true ∧ w.type.isNumeric = true

/-- How an operation ends: exactly, as a decimal without need or reason to fail, or with an error
that has its reason. -/
inductive Ends (o : Operation) : Except Error Value → Prop
  | integer (n : Int64) (h : o.rational? = some (n.toInt : Rat)) : Ends o (.ok (.integer n))
  | decimal (x : Float) (hzero : ¬ o.DividesByZero)
    (h : o.rational? = none ∨ o.IsInexact ∨ o = leastByMinusOne) : Ends o (.ok (.decimal x))
  | overflow (h : o.Overflows) (hne : o ≠ leastByMinusOne) : Ends o (.error .overflow)
  | divisionByZero (h : o.DividesByZero) : Ends o (.error .divisionByZero)

private theorem ends_checked {i : Int} (h : o.rational? = some (i : Rat)) (hne : o ≠ leastByMinusOne) :
    o.Ends (Value.integerOrOverflow (int64? i)) := by
  cases hi : int64? i with
  | none => exact .overflow ⟨i, h, hi⟩ hne
  | some n => exact .integer n (by rw [h, toInt_of_int64? hi])

private theorem eq_least_of_quotient (hc : c ≠ 0) (hdvd : c.toInt ∣ a.toInt)
    (h : int64? (a.toInt.tdiv c.toInt) = none) : a = Int64.minValue ∧ c = -1 := by
  obtain ⟨k, hk⟩ := hdvd
  have hc0 : c.toInt ≠ 0 := fun hzero => hc (Int64.toInt_inj.1 hzero)
  have hquotient : a.toInt.tdiv c.toInt = k := by
    rw [hk, Int.mul_tdiv_cancel_left k hc0]
  have hrange : ¬ (Int64.minValue.toInt ≤ k ∧ k ≤ Int64.maxValue.toInt) := by
    intro hk'
    rw [hquotient, int64?, if_pos hk'] at h
    cases h
  have hmin : Int64.minValue.toInt = -2 ^ 63 := rfl
  have hmax : Int64.maxValue.toInt = 2 ^ 63 - 1 := rfl
  have hlow : -2 ^ 63 ≤ a.toInt := Int64.minValue_le_toInt a
  have hhigh : a.toInt < 2 ^ 63 := a.toInt_lt
  have hfar : 2 ^ 63 ≤ k.natAbs := by omega
  have habs : a.toInt.natAbs = c.toInt.natAbs * k.natAbs := by rw [hk, Int.natAbs_mul]
  have hunit : c.toInt.natAbs = 1 := by
    by_contra hne
    have htwo : 2 ≤ c.toInt.natAbs := by omega
    have hlarge : 2 * 2 ^ 63 ≤ c.toInt.natAbs * k.natAbs := Nat.mul_le_mul htwo hfar
    omega
  rw [hunit, Nat.one_mul] at habs
  have hsign : c.toInt = -1 := by
    rcases Int.natAbs_eq_iff.1 hunit with hone | hminus
    · rw [hone, Int.natCast_one, Int.one_mul] at hk
      omega
    · exact hminus
  have hleast : a.toInt = Int64.minValue.toInt := by omega
  exact ⟨Int64.toInt_inj.1 hleast, Int64.toInt_inj.1 hsign⟩

private theorem exists_decimals (hv : v.type.isNumeric = true) (hw : w.type.isNumeric = true) :
    (∃ a c, v = .integer a ∧ w = .integer c) ∨
      ∃ x y, v.promote w = .ok (.decimals x y) ∧ (w.IsZero ↔ (y == 0.0) = true) ∧
        ∀ op, (binary op v w).rational? = none := by
  have hzero : ∀ c : Int64, (Value.integer c).IsZero ↔ (nearestDecimal c == 0.0) = true := by
    intro c
    by_cases hc : c = 0
    · subst hc
      exact iff_of_true rfl (by decide)
    · exact iff_of_false hc (by rw [nearestDecimal_beq_zero hc]; exact Bool.false_ne_true)
  cases v with
  | bool _ | string _ | node _ => cases hv
  | integer a =>
      cases w with
      | bool _ | string _ | node _ => cases hw
      | integer c => exact Or.inl ⟨a, c, rfl, rfl⟩
      | decimal y => exact Or.inr ⟨_, y, rfl, Iff.rfl, fun _ => rfl⟩
  | decimal x =>
      cases w with
      | bool _ | string _ | node _ => cases hw
      | integer c => exact Or.inr ⟨x, _, rfl, hzero c, fun _ => rfl⟩
      | decimal y => exact Or.inr ⟨x, y, rfl, Iff.rfl, fun _ => rfl⟩

private theorem div_eq_tdiv {i j : Int} (hj : j ≠ 0) (h : j ∣ i) :
    (i : Rat) / j = (i.tdiv j : Int) := by
  obtain ⟨k, rfl⟩ := h
  rw [Int.mul_tdiv_cancel_left k hj, Rat.intCast_mul, Rat.mul_comm,
    Rat.mul_div_cancel (mt Rat.intCast_eq_zero_iff.1 hj)]

private theorem rational?_div (hc : c.toInt ≠ 0) :
    (binary .div (.integer a) (.integer c)).rational? = some ((a.toInt : Rat) / c.toInt) :=
  if_neg (mt Rat.intCast_eq_zero_iff.1 hc)

private theorem ends_div (a c : Int64) :
    (binary .div (.integer a) (.integer c)).Ends (Value.divideIntegers a c) := by
  unfold Value.divideIntegers Value.exactQuotient?
  by_cases hc : c = 0
  · rw [if_pos hc]
    exact .divisionByZero hc
  · have hc0 : c.toInt ≠ 0 := fun hzero => hc (Int64.toInt_inj.1 hzero)
    rw [if_neg hc]
    by_cases hdvd : c.toInt ∣ a.toInt
    · rw [if_pos (Int.tmod_eq_zero_of_dvd hdvd)]
      cases hq : int64? (a.toInt.tdiv c.toInt) with
      | some q =>
          refine .integer q ?_
          rw [rational?_div hc0, toInt_of_int64? hq, div_eq_tdiv hc0 hdvd]
      | none =>
          obtain ⟨rfl, rfl⟩ := eq_least_of_quotient hc hdvd hq
          exact .decimal _ hc (Or.inr (Or.inr rfl))
    · rw [if_neg fun hmod => hdvd (Int.dvd_of_tmod_eq_zero hmod)]
      exact .decimal _ hc (Or.inr (Or.inl ⟨hc, hdvd⟩))

private theorem ends_decimals {op : BinaryOp} (hop : op.IsArithmetic)
    (hpromote : v.promote w = .ok (.decimals x y)) (hzero : w.IsZero ↔ (y == 0.0) = true)
    (hnone : (binary op v w).rational? = none) : (binary op v w).Ends (op.apply v w) := by
  cases op with
  | add =>
      change Ends _ (v.add w)
      rw [Value.add, hpromote]
      exact .decimal _ id (Or.inl hnone)
  | sub =>
      change Ends _ (v.sub w)
      rw [Value.sub, hpromote]
      exact .decimal _ id (Or.inl hnone)
  | mul =>
      change Ends _ (v.mul w)
      rw [Value.mul, hpromote]
      exact .decimal _ id (Or.inl hnone)
  | div =>
      change Ends _ (v.div w)
      rw [Value.div, hpromote]
      simp only [Value.divideDecimals]
      split
      · rename_i hy
        exact .divisionByZero (hzero.2 hy)
      · rename_i hy
        exact .decimal _ (mt hzero.1 hy) (Or.inl hnone)
  | _ => cases hop

theorem ends_run (h : o.IsNumeric) : o.Ends o.run := by
  cases o with
  | negation v =>
      cases v with
      | integer a => exact ends_checked (by rw [Rat.intCast_neg]; rfl) (by simp [leastByMinusOne])
      | decimal x => exact .decimal _ id (Or.inl rfl)
      | bool _ | string _ | node _ => cases h
  | binary op v w =>
      obtain ⟨hop, hv, hw⟩ := h
      rcases exists_decimals hv hw with ⟨a, c, rfl, rfl⟩ | ⟨x, y, hpromote, hzero, hnone⟩
      · cases op with
        | add => exact ends_checked (by rw [Rat.intCast_add]; rfl) (by simp [leastByMinusOne])
        | sub => exact ends_checked (by rw [Rat.intCast_sub]; rfl) (by simp [leastByMinusOne])
        | mul => exact ends_checked (by rw [Rat.intCast_mul]; rfl) (by simp [leastByMinusOne])
        | div => exact ends_div a c
        | _ => cases hop
      · exact ends_decimals hop hpromote hzero (hnone op)

private theorem rational?_of_isInexact (h : o.IsInexact) : ∀ i : Int, o.rational? ≠ some (i : Rat) := by
  cases o with
  | negation v => cases h
  | binary op v w =>
      cases op with
      | div =>
          cases v with
          | integer a =>
              cases w with
              | integer c =>
                  obtain ⟨hc, hdvd⟩ := h
                  have hc0 : c.toInt ≠ 0 := fun hzero => hc (Int64.toInt_inj.1 hzero)
                  intro i hi
                  rw [rational?_div hc0] at hi
                  refine hdvd ⟨i, Rat.intCast_inj.1 ?_⟩
                  rw [Rat.intCast_mul, ← Option.some.inj hi, Rat.mul_comm,
                    Rat.div_mul_cancel (mt Rat.intCast_eq_zero_iff.1 hc0)]
              | _ => cases h
          | _ => cases h
      | _ => cases h

private theorem rational?_of_dividesByZero (h : o.DividesByZero) : o.rational? = none := by
  cases o with
  | negation v => cases h
  | binary op v w =>
      cases op with
      | div =>
          cases w with
          | integer c =>
              obtain rfl : c = 0 := h
              cases v <;> rfl
          | _ => cases v <;> rfl
      | _ => cases h

theorem rational?_ne_none {op : BinaryOp} (hop : op.IsArithmetic)
    (h : ¬ (binary op (.integer a) (.integer c)).DividesByZero) :
    (binary op (.integer a) (.integer c)).rational? ≠ none := by
  cases op with
  | add | sub | mul => exact Option.some_ne_none _
  | div =>
      have hc0 : c.toInt ≠ 0 := fun hzero => h (Int64.toInt_inj.1 hzero)
      rw [rational?_div hc0]
      exact Option.some_ne_none _
  | _ => cases hop

theorem overflows_leastByMinusOne : leastByMinusOne.Overflows := by
  refine ⟨2 ^ 63, ?_, by decide⟩
  rw [leastByMinusOne, rational?_div (by decide), div_eq_tdiv (by decide) (by decide)]
  rfl

/-- What gives a result had no reason to fail, but for the least integer. -/
theorem Ends.ok (h : o.Ends (.ok v)) :
    ¬ o.DividesByZero ∧ (o.Overflows → o = leastByMinusOne) := by
  cases h with
  | integer n hn =>
      refine ⟨fun hzero => ?_, fun ⟨i, hi, hnone⟩ => ?_⟩
      · rw [rational?_of_dividesByZero hzero] at hn
        cases hn
      · rw [hn] at hi
        rw [← Rat.intCast_inj.1 (Option.some.inj hi), int64?_toInt] at hnone
        cases hnone
  | decimal x hzero hx =>
      refine ⟨hzero, fun ⟨i, hi, hnone⟩ => ?_⟩
      rcases hx with hx | hx | hx
      · rw [hx] at hi
        cases hi
      · exact absurd hi (rational?_of_isInexact hx i)
      · exact hx

theorem not_dividesByZero_of_overflows (h : o.Overflows) : ¬ o.DividesByZero := by
  obtain ⟨i, hi, -⟩ := h
  intro hzero
  rw [rational?_of_dividesByZero hzero] at hi
  cases hi

end Operation

/-! ## A whole expression -/

namespace Expression

open Operation (leastByMinusOne)

variable {b : Bindings} {e : Expression} {o : Operation} {ops : List Operation} {exact : Option Rat}
  {r : Except Error Value}

/-- How the operations of an expression lead to its result. -/
inductive Leads (ops : List Operation) (exact : Option Rat) : Except Error Value → Prop
  | integer (n : Int64) (h : exact = some (n.toInt : Rat))
    (hops : ∀ o ∈ ops, ∃ k, o.run = .ok (.integer k)) : Leads ops exact (.ok (.integer n))
  | decimal (x : Float) (hops : ∀ o ∈ ops, ∃ v, o.run = .ok v)
    (h : ∃ o ∈ ops, o.IsInexact ∨ o = leastByMinusOne) : Leads ops exact (.ok (.decimal x))
  | error (e : Error) (before : List Operation) (o : Operation) (heq : ops = before ++ [o])
    (hbefore : ∀ p ∈ before, ∃ v, p.run = .ok v) (h : o.run = .error e) : Leads ops exact (.error e)

private theorem Leads.ok (h : Leads ops exact (.ok v)) :
    v.type.isNumeric = true ∧ ∀ o ∈ ops, ∃ v, o.run = .ok v := by
  cases h with
  | integer n _ hops =>
      refine ⟨rfl, fun o ho => ?_⟩
      obtain ⟨k, hk⟩ := hops o ho
      exact ⟨_, hk⟩
  | decimal x hops _ => exact ⟨rfl, hops⟩

private theorem Leads.after {err : Error} {exact' : Option Rat} (before : List Operation)
    (h : Leads ops exact (.error err)) (hbefore : ∀ o ∈ before, ∃ v, o.run = .ok v) :
    Leads (before ++ ops) exact' (.error err) := by
  cases h with
  | error _ first o heq hfirst hrun =>
      refine .error err (before ++ first) o ?_ (List.forall_mem_append.2 ⟨hbefore, hfirst⟩) hrun
      rw [heq, List.append_assoc]

private theorem Leads.step (hops : ∀ p ∈ ops, ∃ v, p.run = .ok v) (hends : o.Ends o.run)
    (h : (exact = o.rational? ∧ (¬ o.DividesByZero → o.rational? ≠ none) ∧
        ∀ p ∈ ops, ∃ k, p.run = .ok (.integer k)) ∨
      (o.rational? = none ∧ ∃ p ∈ ops, p.IsInexact ∨ p = leastByMinusOne)) :
    Leads (ops ++ [o]) exact o.run := by
  have hall : ∀ {v}, o.run = .ok v → ∀ p ∈ ops ++ [o], ∃ v, p.run = .ok v := by
    intro v hv
    exact List.forall_mem_append.2 ⟨hops, List.forall_mem_singleton.2 ⟨v, hv⟩⟩
  generalize hr : o.run = r at hends
  cases hends with
  | integer n hn =>
      rcases h with ⟨hexact, -, hintegers⟩ | ⟨hnone, -⟩
      · refine .integer n (hexact.trans hn) ?_
        exact List.forall_mem_append.2 ⟨hintegers, List.forall_mem_singleton.2 ⟨n, hr⟩⟩
      · rw [hnone] at hn
        cases hn
  | decimal x hzero hx =>
      refine .decimal x (hall hr) ?_
      rcases hx with hx | hx
      · rcases h with ⟨-, hne, -⟩ | ⟨-, p, hp, hinexact⟩
        · exact absurd hx (hne hzero)
        · exact ⟨p, List.mem_append_left _ hp, hinexact⟩
      · exact ⟨o, List.mem_append_right _ (List.mem_singleton_self o), hx⟩
  | overflow _ _ => exact .error _ ops o rfl hops hr
  | divisionByZero _ => exact .error _ ops o rfl hops hr

private theorem evaluate_binary {op : BinaryOp} {left right : Expression} (hop : op.IsArithmetic) :
    (Expression.binary op left right).evaluate b =
      (left.evaluate b >>= fun v => right.evaluate b >>= fun w => op.apply v w) := by
  have hdecided : ∀ v, op.decidedBy v = .ok none := by
    intro v
    cases op with
    | add | sub | mul | div => rfl
    | _ => cases hop
  rw [evaluate]
  refine congrArg (left.evaluate b >>= ·) (funext fun v => ?_)
  rw [hdecided, Result.ok_bind]

private theorem leads_operands {op : BinaryOp} {left right : Expression} {ops' : List Operation}
    (hop : op.IsArithmetic) (h : Leads ops (left.rational? b) (.ok v))
    (h' : Leads ops' (right.rational? b) (.ok w)) :
    ((Expression.binary op left right).rational? b = (Operation.binary op v w).rational? ∧
        (¬ (Operation.binary op v w).DividesByZero → (Operation.binary op v w).rational? ≠ none) ∧
        ∀ p ∈ ops ++ ops', ∃ k, p.run = .ok (.integer k)) ∨
      ((Operation.binary op v w).rational? = none ∧
        ∃ p ∈ ops ++ ops', p.IsInexact ∨ p = leastByMinusOne) := by
  cases h with
  | integer a ha hops =>
      cases h' with
      | integer c hc hops' =>
          refine Or.inl ⟨?_, Operation.rational?_ne_none hop, List.forall_mem_append.2 ⟨hops, hops'⟩⟩
          rw [rational?, ha, hc]
          rfl
      | decimal y _ hinexact =>
          obtain ⟨p, hp, hinexact⟩ := hinexact
          exact Or.inr ⟨rfl, p, List.mem_append_right _ hp, hinexact⟩
  | decimal x _ hinexact =>
      obtain ⟨p, hp, hinexact⟩ := hinexact
      exact Or.inr ⟨rfl, p, List.mem_append_left _ hp, hinexact⟩

/-- The operations of an expression of arithmetic end as they should, and lead to its result. -/
theorem leads_evaluate (h : e.IsArithmetic b) :
    (∀ o ∈ e.operations b, o.Ends o.run) ∧
      Leads (e.operations b) (e.rational? b) (e.evaluate b) := by
  induction h with
  | @var v n k hv hn =>
      refine ⟨fun o ho => absurd ho List.not_mem_nil, ?_⟩
      have hrun : (Expression.variable v).evaluate b = .ok (.integer k) := by
        rw [evaluate, hv, ← hn]
      rw [hrun]
      refine .integer k ?_ fun o ho => absurd ho List.not_mem_nil
      rw [rational?, hv, Option.bind_some, hn]
      rfl
  | @const n k hn =>
      refine ⟨fun o ho => absurd ho List.not_mem_nil, ?_⟩
      have hrun : (Expression.constant n).evaluate b = .ok (.integer k) := congrArg Except.ok hn
      rw [hrun]
      refine .integer k ?_ fun o ho => absurd ho List.not_mem_nil
      rw [rational?, hn]
      rfl
  | @negate e he ih =>
      obtain ⟨hends, hleads⟩ := ih
      cases hv : e.evaluate b with
      | error err =>
          rw [hv] at hleads
          have hrun : (Expression.unary .negate e).evaluate b = .error err := by
            rw [evaluate, hv, Result.error_bind]
          rw [hrun, operations, hv]
          refine ⟨hends, ?_⟩
          exact hleads.after [] (List.forall_mem_nil _)
      | ok v =>
          rw [hv] at hleads
          have hrun : (Expression.unary .negate e).evaluate b = (Operation.negation v).run := by
            rw [evaluate, hv, Result.ok_bind]
            rfl
          have hlast : (Operation.negation v).Ends (Operation.negation v).run :=
            Operation.ends_run hleads.ok.1
          rw [hrun, operations, hv]
          refine ⟨List.forall_mem_append.2 ⟨hends, List.forall_mem_singleton.2 hlast⟩,
            .step hleads.ok.2 hlast ?_⟩
          cases hleads with
          | integer n hn hops =>
              exact Or.inl ⟨by rw [rational?, hn]; rfl, fun _ => Option.some_ne_none _, hops⟩
          | decimal x hops hinexact => exact Or.inr ⟨rfl, hinexact⟩
  | @binary op left right hop hleft hright ihleft ihright =>
      obtain ⟨hends, hleads⟩ := ihleft
      obtain ⟨hends', hleads'⟩ := ihright
      rw [evaluate_binary hop, operations]
      cases hv : left.evaluate b with
      | error err =>
          rw [hv] at hleads
          exact ⟨hends, hleads.after [] (List.forall_mem_nil _)⟩
      | ok v =>
          rw [hv] at hleads
          cases hw : right.evaluate b with
          | error err =>
              rw [hw] at hleads'
              exact ⟨List.forall_mem_append.2 ⟨hends, hends'⟩, hleads'.after _ hleads.ok.2⟩
          | ok w =>
              rw [hw] at hleads'
              have hlast : (Operation.binary op v w).Ends (Operation.binary op v w).run :=
                Operation.ends_run ⟨hop, hleads.ok.1, hleads'.ok.1⟩
              have hboth := List.forall_mem_append.2 ⟨hends, hends'⟩
              refine ⟨List.forall_mem_append.2 ⟨hboth, List.forall_mem_singleton.2 hlast⟩,
                .step (List.forall_mem_append.2 ⟨hleads.ok.2, hleads'.ok.2⟩) hlast ?_⟩
              exact leads_operands hop hleads hleads'

private theorem Leads.fails {before after : List Operation} (h : Leads ops exact r)
    (heq : ops = before ++ o :: after) (hfails : ¬ ∃ v, o.run = .ok v) :
    after = [] ∧ ∃ err, o.run = .error err ∧ r = .error err := by
  have hmem : o ∈ ops := heq ▸ List.mem_append_right _ List.mem_cons_self
  cases h with
  | integer n _ hops =>
      obtain ⟨k, hk⟩ := hops o hmem
      exact absurd ⟨_, hk⟩ hfails
  | decimal x hops _ => exact absurd (hops o hmem) hfails
  | error err first last hlast hfirst hrun =>
      rw [hlast] at heq
      rcases List.eq_nil_or_concat after with rfl | ⟨mid, x, rfl⟩
      · obtain ⟨-, rfl⟩ := List.append_singleton_inj.1 heq
        exact ⟨rfl, err, hrun, rfl⟩
      · have hsplit : first ++ [last] = (before ++ o :: mid) ++ [x] := by
          rw [heq, List.append_assoc, List.concat_eq_append, List.cons_append]
        obtain ⟨rfl, -⟩ := List.append_singleton_inj.1 hsplit
        exact absurd (hfirst o (List.mem_append_right _ List.mem_cons_self)) hfails

private theorem exists_first_overflow (h : Leads ops exact r) (hends : ∀ o ∈ ops, o.Ends o.run)
    (hover : ∃ o ∈ ops, o.Overflows) :
    ∃ before o after, ops = before ++ o :: after ∧ o.Overflows ∧
      ∀ p ∈ before, ¬ p.Overflows ∧ ¬ p.DividesByZero := by
  classical
  obtain ⟨o, ho⟩ : ∃ o, ops.find? (fun o => decide o.Overflows) = some o := by
    obtain ⟨o, ho, hover⟩ := hover
    exact Option.isSome_iff_exists.1 (List.find?_isSome.2 ⟨o, ho, decide_eq_true hover⟩)
  obtain ⟨hover, before, after, heq, hfirst⟩ := List.find?_eq_some_iff_append.1 ho
  refine ⟨before, o, after, heq, of_decide_eq_true hover, fun p hp => ⟨?_, fun hzero => ?_⟩⟩
  · exact of_decide_eq_false (Bool.not_eq_true' _ ▸ hfirst p hp)
  · have hmem : p ∈ ops := heq ▸ List.mem_append_left _ hp
    have hfails : ¬ ∃ v, p.run = .ok v := by
      rintro ⟨v, hv⟩
      exact (hv ▸ hends p hmem).ok.1 hzero
    obtain ⟨b₁, b₂, rfl⟩ := List.append_of_mem hp
    have hsplit : ops = b₁ ++ p :: (b₂ ++ o :: after) := by
      rw [heq, List.append_assoc, List.cons_append]
    have hnil := (h.fails hsplit hfails).1
    exact List.append_ne_nil_of_right_ne_nil b₂ (List.cons_ne_nil o after) hnil

private theorem Leads.reason {err : Error} (h : Leads ops exact (.error err))
    (hends : ∀ o ∈ ops, o.Ends o.run) :
    ∃ o ∈ ops, (err = .overflow ∧ o.Overflows) ∨ (err = .divisionByZero ∧ o.DividesByZero) := by
  cases h with
  | error _ before o heq _ hrun =>
      have hmem : o ∈ ops := heq ▸ List.mem_append_right _ (List.mem_singleton_self o)
      refine ⟨o, hmem, ?_⟩
      have hend := hends o hmem
      rw [hrun] at hend
      cases hend with
      | overflow hover _ => exact Or.inl ⟨rfl, hover⟩
      | divisionByZero hzero => exact Or.inr ⟨rfl, hzero⟩

private theorem evaluate_of_overflows (h : e.IsArithmetic b) (ho : o ∈ e.operations b)
    (hover : o.Overflows) (hne : o ≠ leastByMinusOne) : e.evaluate b = .error .overflow := by
  obtain ⟨hends, hleads⟩ := leads_evaluate h
  have hfails : ¬ ∃ v, o.run = .ok v := by
    rintro ⟨v, hv⟩
    have hend := hends o ho
    rw [hv] at hend
    exact hne (hend.ok.2 hover)
  obtain ⟨before, after, heq⟩ := List.append_of_mem ho
  obtain ⟨-, err, hrun, hresult⟩ := hleads.fails heq hfails
  have hend := hends o ho
  rw [hrun] at hend
  cases hend with
  | overflow _ _ => exact hresult
  | divisionByZero hzero => exact absurd hzero (Operation.not_dividesByZero_of_overflows hover)

/-- How arithmetic on integers ends: with the exact value, with a decimal after a division that is not
exact or does not fit, or with an error that has its reason. -/
structure EndsWithReason (b : Bindings) (e : Expression) : Prop where
  ends : (∃ n, e.evaluate b = .ok (.integer n)) ∨ (∃ x, e.evaluate b = .ok (.decimal x)) ∨
    e.evaluate b = .error .divisionByZero ∨ e.evaluate b = .error .overflow
  integer : ∀ n, e.evaluate b = .ok (.integer n) → e.rational? b = some (n.toInt : Rat)
  decimal : ∀ x, e.evaluate b = .ok (.decimal x) →
    leastByMinusOne ∈ e.operations b ∨ ∃ o ∈ e.operations b, o.IsInexact
  divisionByZero : e.evaluate b = .error .divisionByZero → ∃ o ∈ e.operations b, o.DividesByZero
  overflow : e.evaluate b = .error .overflow → ∃ o ∈ e.operations b, o.Overflows

theorem endsWithReason (h : e.IsArithmetic b) : e.EndsWithReason b := by
  obtain ⟨hends, hleads⟩ := leads_evaluate h
  constructor
  · generalize e.evaluate b = r at hleads
    cases r with
    | ok v =>
        cases hleads with
        | integer n _ _ => exact Or.inl ⟨n, rfl⟩
        | decimal x _ _ => exact Or.inr (Or.inl ⟨x, rfl⟩)
    | error err =>
        obtain ⟨o, -, ⟨rfl, -⟩ | ⟨rfl, -⟩⟩ := hleads.reason hends
        · exact Or.inr (Or.inr (Or.inr rfl))
        · exact Or.inr (Or.inr (Or.inl rfl))
  · intro n hn
    rw [hn] at hleads
    cases hleads with
    | integer _ hexact _ => exact hexact
  · intro x hx
    rw [hx] at hleads
    cases hleads with
    | decimal _ _ hinexact =>
        obtain ⟨o, ho, hinexact | rfl⟩ := hinexact
        · exact Or.inr ⟨o, ho, hinexact⟩
        · exact Or.inl ho
  · intro hzero
    rw [hzero] at hleads
    obtain ⟨o, ho, ⟨heq, -⟩ | ⟨-, hreason⟩⟩ := hleads.reason hends
    · cases heq
    · exact ⟨o, ho, hreason⟩
  · intro hover
    rw [hover] at hleads
    obtain ⟨o, ho, ⟨-, hreason⟩ | ⟨heq, -⟩⟩ := hleads.reason hends
    · exact ⟨o, ho, hreason⟩
    · cases heq

theorem isExactOrReported_iff (h : e.IsArithmetic b) :
    e.IsExactOrReported b ↔
      leastByMinusOne ∉ e.operations b ∨ e.evaluate b = .error .overflow := by
  obtain ⟨hends, hleads⟩ := leads_evaluate h
  have hreason := endsWithReason h
  constructor
  · intro hclaim
    by_cases hleast : leastByMinusOne ∈ e.operations b
    · have hover : ∃ o ∈ e.operations b, o.Overflows :=
        ⟨_, hleast, Operation.overflows_leastByMinusOne⟩
      exact Or.inr (hclaim.overflow.2 (exists_first_overflow hleads hends hover))
    · exact Or.inl hleast
  · intro hresult
    refine ⟨hreason.integer, hreason.divisionByZero, fun x hx => ?_,
      fun hover => exists_first_overflow hleads hends (hreason.overflow hover), ?_⟩
    · rw [hx] at hresult
      have hnot : leastByMinusOne ∉ e.operations b := hresult.resolve_right nofun
      exact (hreason.decimal x hx).resolve_left hnot
    · rintro ⟨before, o, after, heq, hover, -⟩
      have ho : o ∈ e.operations b := by
        rw [heq]
        exact List.mem_append_right _ List.mem_cons_self
      rcases hresult with hnot | hover'
      · refine evaluate_of_overflows h ho hover ?_
        rintro rfl
        exact hnot ho
      · exact hover'

/-- Whatever arithmetic on integers ends with has its reason, and an integer is exact. Thus it is exact
or reports what prevents it, unless the least integer is divided by minus one: the quotient, which does
not fit, is given as a decimal, and only an overflow somewhere else may still be reported. -/
theorem evaluate_exact_or_reported (h : e.IsArithmetic b) :
    e.EndsWithReason b ∧ (e.IsExactOrReported b ↔
      leastByMinusOne ∉ e.operations b ∨ e.evaluate b = .error .overflow) :=
  ⟨endsWithReason h, isExactOrReported_iff h⟩

/-- The sum of the least integer divided by minus one, which is a decimal, and of one more than the
greatest integer, which is reported. -/
theorem sum_of_overflows_reported :
    let integer (n : Int64) : Expression := .constant (Value.toNode (.integer n))
    let e : Expression := .binary .add
      (.binary .div (integer Int64.minValue) (integer (-1)))
      (.binary .add (integer Int64.maxValue) (integer 1))
    e.IsArithmetic ∅ ∧ e.EndsWithReason ∅ ∧ e.IsExactOrReported ∅ ∧
      e.evaluate ∅ = .error .overflow := by
  intro integer e
  have hleaf : ∀ n, Value.ofNode (Value.toNode (.integer n)) = .integer n →
      (integer n).IsArithmetic ∅ := fun n hn => .const hn
  have harith : e.IsArithmetic ∅ :=
    .binary trivial (.binary trivial (hleaf _ (by rfl)) (hleaf _ (by rfl)))
      (.binary trivial (hleaf _ (by rfl)) (hleaf _ (by rfl)))
  have hoverflow : e.evaluate ∅ = .error .overflow := by rfl
  obtain ⟨hreason, hiff⟩ := evaluate_exact_or_reported harith
  exact ⟨harith, hreason, hiff.2 (Or.inr hoverflow), hoverflow⟩

/-- The least integer divided by minus one is neither exact nor reported. -/
theorem least_by_minus_one_not_reported :
    let e : Expression := .binary .div (.constant (Value.toNode (.integer Int64.minValue)))
      (.constant (Value.toNode (.integer (-1))))
    e.IsArithmetic ∅ ∧ ¬ e.IsExactOrReported ∅ := by
  intro e
  have harith : e.IsArithmetic ∅ := .binary trivial (.const (by rfl)) (.const (by rfl))
  refine ⟨harith, ?_⟩
  have hops : e.operations ∅ = [leastByMinusOne] := by rfl
  have hrun : e.evaluate ∅ =
      .ok (.decimal (nearestDecimal Int64.minValue / nearestDecimal (-1))) := by rfl
  rw [isExactOrReported_iff harith, hops, hrun, not_or, not_not]
  exact ⟨List.mem_singleton_self _, nofun⟩

end Expression

end Entail
