import Entail.Evaluator
import Entail.Proofs.Except
/-!
# Errors of evaluation

An expression whose variables are bound, and an aggregate over members that bind the variables of its
argument, fail on the data only: on values of the wrong type, on a division by zero, on numbers out of
range. They do not come upon an unbound variable, an empty group or an operation that is none.
-/

namespace Entail

variable {α β : Type}

/-- The errors that the nodes found can lead to, however well-formed what reads them is. -/
def Error.IsOfData : Error → Prop
  | typeMismatch _ _ | divisionByZero | overflow | unsupportedNode _ => True
  | _ => False

/-! ## Safe results -/

/-- If there is no result, the data is to blame. -/
def IsSafe (x : Except Error α) : Prop :=
  ∀ e, x = .error e → e.IsOfData

namespace IsSafe

variable {x : Except Error α} {l : List α}

theorem ok (a : α) : IsSafe (.ok a) :=
  fun _ h => by cases h

theorem error {e : Error} (h : e.IsOfData) : IsSafe (.error e : Except Error α) :=
  fun _ heq => Except.error.inj heq ▸ h

theorem bind {f : α → Except Error β} (h : IsSafe x) (hf : ∀ a, x = .ok a → IsSafe (f a)) :
    IsSafe (x >>= f) := by
  cases x with
  | error e => exact error (h e rfl)
  | ok a => exact hf a rfl

theorem map {f : α → β} (h : IsSafe x) : IsSafe (x.map f) := by
  cases x with
  | error e => exact error (h e rfl)
  | ok a => exact ok (f a)

theorem mapM {f : α → Except Error β} (h : ∀ a ∈ l, IsSafe (f a)) : IsSafe (l.mapM f) := by
  induction l with
  | nil => exact ok []
  | cons a rest ih =>
      obtain ⟨ha, hrest⟩ := List.forall_mem_cons.1 h
      rw [List.mapM_cons]
      exact ha.bind fun _ _ => (ih hrest).bind fun _ _ => ok _

theorem foldlM {step : β → α → Except Error β} (h : ∀ b a, IsSafe (step b a)) (b : β) :
    IsSafe (l.foldlM step b) := by
  induction l generalizing b with
  | nil => exact ok b
  | cons a rest ih =>
      rw [List.foldlM_cons]
      exact (h b a).bind fun b' _ => ih b'

end IsSafe

/-! ## Values -/

namespace Value

variable {v w : Value}

theorem isSafe_integerOrOverflow (n : Option Int64) : IsSafe (integerOrOverflow n) := by
  cases n with
  | none => exact .error trivial
  | some n => exact .ok _

theorem isSafe_ofCount (n : Nat) : IsSafe (ofCount n) :=
  isSafe_integerOrOverflow _

theorem isSafe_promote (v w : Value) : IsSafe (v.promote w) := by
  unfold promote
  split
  · exact .ok _
  · split
    · exact .ok _
    · exact .error trivial
    · exact .error trivial

private theorem isSafe_numbers (v w : Value) {integers : Int64 → Int64 → Except Error α}
    {decimals : Float → Float → Except Error α} (hintegers : ∀ a b, IsSafe (integers a b))
    (hdecimals : ∀ a b, IsSafe (decimals a b)) :
    IsSafe (match v.promote w with
      | .ok (.integers a b) => integers a b
      | .ok (.decimals a b) => decimals a b
      | .error e => .error e) := by
  cases hpromote : v.promote w with
  | error e => exact .error (isSafe_promote v w e hpromote)
  | ok n =>
      cases n with
      | integers a b => exact hintegers a b
      | decimals a b => exact hdecimals a b

private theorem isSafe_compareDecimals (a b : Float) : IsSafe (compareDecimals a b) := by
  unfold compareDecimals
  split
  · exact .ok _
  · split
    · exact .ok _
    · split
      · exact .ok _
      · exact .error trivial

theorem isSafe_compare (v w : Value) : IsSafe (v.compare w) := by
  unfold compare
  split
  · exact .ok _
  · exact .ok _
  · exact .ok _
  · exact isSafe_numbers v w (fun _ _ => .ok _) isSafe_compareDecimals

private theorem isSafe_divideIntegers (a b : Int64) : IsSafe (divideIntegers a b) := by
  unfold divideIntegers
  split
  · exact .error trivial
  · split
    · exact .ok _
    · exact .ok _

private theorem isSafe_divideDecimals (a b : Float) : IsSafe (divideDecimals a b) := by
  unfold divideDecimals
  split
  · exact .error trivial
  · exact .ok _

theorem isSafe_add (v w : Value) : IsSafe (v.add w) :=
  isSafe_numbers v w (fun _ _ => isSafe_integerOrOverflow _) fun _ _ => .ok _

theorem isSafe_sub (v w : Value) : IsSafe (v.sub w) :=
  isSafe_numbers v w (fun _ _ => isSafe_integerOrOverflow _) fun _ _ => .ok _

theorem isSafe_mul (v w : Value) : IsSafe (v.mul w) :=
  isSafe_numbers v w (fun _ _ => isSafe_integerOrOverflow _) fun _ _ => .ok _

theorem isSafe_div (v w : Value) : IsSafe (v.div w) :=
  isSafe_numbers v w isSafe_divideIntegers isSafe_divideDecimals

theorem isSafe_neg (v : Value) : IsSafe v.neg := by
  unfold neg
  split
  · exact isSafe_integerOrOverflow _
  · exact .ok _
  · exact .error trivial

theorem isSafe_expectBool (v : Value) : IsSafe v.expectBool := by
  unfold expectBool
  split
  · exact .ok _
  · exact .error trivial

theorem isSafe_stringForm (v : Value) : IsSafe v.stringForm := by
  unfold stringForm
  split
  · exact .ok _
  · exact .ok _
  · exact .ok _
  · exact .error trivial
  · exact .ok _

end Value

/-! ## Expressions -/

theorem UnaryOp.isSafe_apply (op : UnaryOp) (v : Value) : IsSafe (op.apply v) := by
  cases op with
  | not => exact (Value.isSafe_expectBool v).map
  | negate => exact Value.isSafe_neg v

theorem BinaryOp.isSafe_decidedBy (op : BinaryOp) (v : Value) : IsSafe (op.decidedBy v) := by
  unfold decidedBy
  split
  · exact (Value.isSafe_expectBool v).map
  · exact (Value.isSafe_expectBool v).map
  · exact .ok none

theorem BinaryOp.isSafe_apply (op : BinaryOp) (v w : Value) : IsSafe (op.apply v w) := by
  cases op with
  | add => exact Value.isSafe_add v w
  | sub => exact Value.isSafe_sub v w
  | mul => exact Value.isSafe_mul v w
  | div => exact Value.isSafe_div v w
  | eq | ne => exact .ok _
  | lt | le | gt | ge => exact (Value.isSafe_compare v w).map
  | and | or => exact (Value.isSafe_expectBool w).map

namespace Expression

variable {b : Bindings}

mutual

theorem isSafe_evaluate : (e : Expression) → (∀ v ∈ e.reads, b.contains v = true) →
    IsSafe (e.evaluate b)
  | .variable v, h => by
      obtain ⟨n, hn⟩ := OrderedMap.contains_iff.1 (h v (List.mem_singleton_self v))
      rw [evaluate, hn]
      exact .ok _
  | .constant n, _ => .ok _
  | .bound v, _ => .ok _
  | .str e, h =>
      (isSafe_evaluate e h).bind fun v _ => v.isSafe_stringForm.bind fun _ _ => .ok _
  | .concat parts, h => (isSafe_joinForms parts h).bind fun _ _ => .ok _
  | .unary op e, h => (isSafe_evaluate e h).bind fun v _ => op.isSafe_apply v
  | .binary op left right, h => by
      obtain ⟨hleft, hright⟩ := List.forall_mem_append.1 h
      refine (isSafe_evaluate left hleft).bind fun l _ => (op.isSafe_decidedBy l).bind fun d _ => ?_
      cases d with
      | some v => exact .ok v
      | none => exact (isSafe_evaluate right hright).bind fun r _ => op.isSafe_apply l r

theorem isSafe_joinForms : (parts : List Expression) →
    (∀ v ∈ readsAll parts, b.contains v = true) → IsSafe (joinForms b parts)
  | [], _ => .ok _
  | e :: rest, h => by
      obtain ⟨he, hrest⟩ := List.forall_mem_append.1 h
      exact (isSafe_evaluate e he).bind fun v _ => v.isSafe_stringForm.bind fun _ _ =>
        (isSafe_joinForms rest hrest).bind fun _ _ => .ok _

end

end Expression

/-! ## Aggregates -/

namespace AggregateFunction

private theorem isSafe_extremum (wanted : Ordering) {values : List Value} (h : values ≠ []) :
    IsSafe (extremum wanted values) := by
  cases values with
  | nil => exact absurd rfl h
  | cons v rest => exact .foldlM (fun best w => (Value.isSafe_compare w best).map) v

private theorem isSafe_total (values : List Value) : IsSafe (total values) :=
  .foldlM Value.isSafe_add _

private theorem isSafe_mean (values : List Value) : IsSafe (mean values) := by
  unfold mean
  split
  · exact .ok _
  · refine (isSafe_total values).bind fun sum _ => (Value.isSafe_ofCount _).bind fun count _ =>
      (Value.isSafe_promote sum count).bind fun n _ => ?_
    cases n with
    | integers a b => exact .ok _
    | decimals a b => exact .ok _

/-- Only the least and the greatest of no values at all are asked for in vain. -/
theorem isSafe_ofValues (f : AggregateFunction) {values : List Value}
    (h : f ≠ .count → values ≠ []) : IsSafe (f.ofValues values) := by
  cases f with
  | count => exact Value.isSafe_ofCount _
  | sum => exact isSafe_total values
  | min => exact isSafe_extremum .lt (h (by simp))
  | max => exact isSafe_extremum .gt (h (by simp))
  | avg => exact isSafe_mean values
  | groupConcat separator => exact (IsSafe.mapM fun v _ => v.isSafe_stringForm).map

end AggregateFunction

namespace Aggregate

private theorem distinctValues_ne_nil {values : List Value} (h : values ≠ []) :
    distinctValues values ≠ [] := by
  cases values with
  | nil => exact absurd rfl h
  | cons v rest => exact List.cons_ne_nil _ _

private theorem mapM_ne_nil {f : α → Except Error β} {l : List α} {out : List β} (h : l ≠ [])
    (hrun : l.mapM f = .ok out) : out ≠ [] := by
  cases l with
  | nil => exact absurd rfl h
  | cons a rest =>
      rw [List.mapM_cons] at hrun
      obtain ⟨b, _, hrun⟩ := Result.bind_eq_ok_iff.1 hrun
      obtain ⟨more, _, hrun⟩ := Result.bind_eq_ok_iff.1 hrun
      rw [← Except.ok.inj hrun]
      exact List.cons_ne_nil b more

/-- An aggregate over a group that has members is as safe as its argument is for each of them. -/
theorem isSafe_compute {evaluate : Expression → Bindings → Except Error Value} (a : Aggregate)
    {members : List Bindings} (hmembers : members ≠ [])
    (h : ∀ e, a.argument = some e → ∀ b ∈ members, IsSafe (evaluate e b)) :
    IsSafe (a.compute evaluate members) := by
  unfold compute
  cases he : a.argument with
  | none => exact Value.isSafe_ofCount _
  | some e =>
      have hvalues : IsSafe (argumentValues evaluate a.function e members) := by
        unfold argumentValues
        split
        · exact .ok _
        · exact .mapM (h e he)
      -- only a count passes over members, so for any other function there is a value for each
      refine hvalues.bind fun values hrun => a.function.isSafe_ofValues fun hcount => ?_
      rw [argumentValues, if_neg hcount] at hrun
      have hne : values ≠ [] := mapM_ne_nil hmembers hrun
      split
      · exact distinctValues_ne_nil hne
      · exact hne

end Aggregate

end Entail
