import Entail.Change
/-!
# Results

Computations that end in a result or an error, and how those built from smaller ones end.
-/

namespace Entail.Result

variable {ε α β : Type}

@[simp] theorem ok_bind (a : α) (f : α → Except ε β) : (Except.ok a >>= f) = f a := rfl

@[simp] theorem error_bind (e : ε) (f : α → Except ε β) :
    ((Except.error e : Except ε α) >>= f) = .error e := rfl

@[simp] theorem pure_eq_ok (a : α) : (pure a : Except ε α) = .ok a := rfl

theorem bind_eq_ok_iff {x : Except ε α} {f : α → Except ε β} {b : β} :
    (x >>= f) = .ok b ↔ ∃ a, x = .ok a ∧ f a = .ok b := by
  cases x with
  | error e => simp
  | ok a => simp

theorem eq_of_eq_ok {x : Except ε α} {a b : α} (ha : x = .ok a) (hb : x = .ok b) : a = b := by
  rw [ha] at hb
  exact Except.ok.inj hb

theorem pair_eq_of_eq_ok {x : Except ε (α × β)} {a a' : α} {b b' : β} (h : x = .ok (a, b))
    (h' : x = .ok (a', b')) : a = a' ∧ b = b' :=
  Prod.mk.inj (eq_of_eq_ok h h')

theorem of_exists_ok {x : Except ε α} {P : α → Prop} {a : α} (h : ∃ b, x = .ok b ∧ P b)
    (ha : x = .ok a) : P a := by
  obtain ⟨b, hb, hP⟩ := h
  obtain rfl := eq_of_eq_ok ha hb
  exact hP

/-- A fold whose every step succeeds in states that satisfy `inv`, and keeps it, succeeds. -/
theorem foldlM_ok (inv : α → List β → Prop) {step : α → β → Except ε α}
    (hstep : ∀ a b rest, inv a (b :: rest) → ∃ a', step a b = .ok a' ∧ inv a' rest)
    {l : List β} {a : α} (h : inv a l) : ∃ a', l.foldlM step a = .ok a' ∧ inv a' [] := by
  induction l generalizing a with
  | nil => exact ⟨a, rfl, h⟩
  | cons b rest ih =>
      obtain ⟨a₁, h₁, hinv⟩ := hstep a b rest h
      obtain ⟨a₂, h₂, hdone⟩ := ih hinv
      refine ⟨a₂, ?_, hdone⟩
      rw [List.foldlM_cons, h₁, ok_bind, h₂]

theorem foldlM_inv (inv : α → List β → Prop) {step : α → β → Except ε α}
    (hstep : ∀ a b rest a', inv a (b :: rest) → step a b = .ok a' → inv a' rest)
    {l : List β} {a a' : α} (h : inv a l) (hrun : l.foldlM step a = .ok a') : inv a' [] := by
  induction l generalizing a with
  | nil =>
      obtain rfl : a = a' := Except.ok.inj hrun
      exact h
  | cons b rest ih =>
      rw [List.foldlM_cons, bind_eq_ok_iff] at hrun
      obtain ⟨a₁, h₁, hrest⟩ := hrun
      exact ih (hstep a b rest a₁ h h₁) hrest

theorem foldlM_related (R : α → α → Prop) {step : α → β → Except ε α}
    (hstep : ∀ a a' b c, R a a' → step a b = .ok c → ∃ c', step a' b = .ok c' ∧ R c c')
    {l : List β} {a a' c : α} (h : R a a') (hrun : l.foldlM step a = .ok c) :
    ∃ c', l.foldlM step a' = .ok c' ∧ R c c' := by
  induction l generalizing a a' with
  | nil =>
      obtain rfl : a = c := Except.ok.inj hrun
      exact ⟨a', rfl, h⟩
  | cons b rest ih =>
      rw [List.foldlM_cons, bind_eq_ok_iff] at hrun
      obtain ⟨a₁, h₁, hrest⟩ := hrun
      obtain ⟨a₁', h₁', hR⟩ := hstep a a' b a₁ h h₁
      obtain ⟨c', hc', hRc⟩ := ih hR hrest
      refine ⟨c', ?_, hRc⟩
      rw [List.foldlM_cons, h₁', ok_bind, hc']

theorem foldl_related (R : α → α → Prop) {step : α → β → α}
    (hstep : ∀ a a' b, R a a' → R (step a b) (step a' b)) {l : List β} {a a' : α} (h : R a a') :
    R (l.foldl step a) (l.foldl step a') := by
  induction l generalizing a a' with
  | nil => exact h
  | cons b rest ih => exact ih (hstep a a' b h)

theorem foldl_inv (inv : α → List β → Prop) {step : α → β → α}
    (hstep : ∀ a b rest, inv a (b :: rest) → inv (step a b) rest)
    {l : List β} {a : α} (h : inv a l) : inv (l.foldl step a) [] := by
  induction l generalizing a with
  | nil => exact h
  | cons b rest ih => exact ih (hstep a b rest h)

end Entail.Result

/-! ## Stages -/

namespace Entail

variable {σ α β : Type} {step : σ → α → Except Fault (List β × σ)} {s s₁ s₂ : σ} {a : α}
  {l rest : List α} {out more : List β}

theorem runStage_cons (h : step s a = .ok (out, s₁)) (h' : runStage step s₁ rest = .ok (more, s₂)) :
    runStage step s (a :: rest) = .ok (out ++ more, s₂) := by
  rw [runStage, h]
  simp only [h', Result.ok_bind]
  rfl

theorem runStage_append (h : runStage step s l = .ok (out, s₁))
    (h' : runStage step s₁ rest = .ok (more, s₂)) :
    runStage step s (l ++ rest) = .ok (out ++ more, s₂) := by
  induction l generalizing s out with
  | nil =>
      obtain ⟨rfl, rfl⟩ := Prod.mk.inj (Except.ok.inj h)
      exact h'
  | cons a rest ih =>
      rw [runStage, Result.bind_eq_ok_iff] at h
      obtain ⟨⟨first, s'⟩, hfirst, h⟩ := h
      obtain ⟨⟨others, s''⟩, hrest, h⟩ := Result.bind_eq_ok_iff.1 h
      obtain ⟨rfl, rfl⟩ := Prod.mk.inj (Except.ok.inj h)
      rw [List.cons_append, List.append_assoc]
      exact runStage_cons hfirst (ih hrest)

theorem runStage_inv (inv : σ → Prop)
    (hstep : ∀ s a out s', inv s → step s a = .ok (out, s') → inv s')
    (hinv : inv s) (h : runStage step s l = .ok (out, s₁)) : inv s₁ := by
  induction l generalizing s out with
  | nil =>
      obtain ⟨rfl, rfl⟩ := Prod.mk.inj (Except.ok.inj h)
      exact hinv
  | cons a rest ih =>
      obtain ⟨⟨first, s'⟩, hfirst, h⟩ := Result.bind_eq_ok_iff.1 h
      obtain ⟨⟨others, s''⟩, hrest, h⟩ := Result.bind_eq_ok_iff.1 h
      obtain ⟨rfl, rfl⟩ := Prod.mk.inj (Except.ok.inj h)
      exact ih (hstep s a first s' hinv hfirst) hrest

end Entail
