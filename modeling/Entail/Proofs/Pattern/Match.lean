import Entail.Proofs.Bindings.Merge
import Mathlib.Data.List.Forall2
/-!
# Matching

Matching a quad against a pattern finds the one set of bindings under which the pattern stands for
the quad and which binds nothing but the variables of the pattern.
-/

namespace Entail

variable {b c m : Bindings}

namespace Term

/-- What the term says about the node apart from variables. -/
def Accepts : Term → Node → Prop
  | .node k, n => k = n
  | _, _ => True

/-- The pairs that matching the term against `n` contributes. -/
def Binds (t : Term) (n : Node) (v : Variable) (k : Node) : Prop :=
  t = .variable v ∧ k = n

/-- `m` holds the pairs of `b` and those of the term. -/
def Adds (t : Term) (n : Node) (b m : Bindings) : Prop :=
  t.Accepts n ∧ ∀ v k, m.get? v = some k ↔ b.get? v = some k ∨ t.Binds n v k

private theorem adds_of_bind? {t : Term} {n : Node} (h : t.bind? n b = some m) :
    t.Adds n b m := by
  cases t with
  | any =>
      cases h
      exact ⟨trivial, by simp [Binds]⟩
  | node k =>
      simp only [bind?, Option.ite_none_right_eq_some, Option.some_inj] at h
      obtain ⟨rfl, rfl⟩ := h
      exact ⟨rfl, by simp [Binds]⟩
  | «variable» w =>
      refine ⟨trivial, fun v k => ?_⟩
      simp only [bind?] at h
      cases hw : b.get? w with
      | none =>
          simp only [hw, Option.some_inj] at h
          subst h
          rw [OrderedMap.get?_insert]
          by_cases hwv : w = v
          · subst hwv
            simp [Binds, hw, eq_comm]
          · simp [Binds, hwv]
      | some k' =>
          simp only [hw, Option.ite_none_right_eq_some, Option.some_inj] at h
          obtain ⟨rfl, rfl⟩ := h
          by_cases hwv : w = v
          · subst hwv
            simp [Binds, hw, eq_comm]
          · simp [Binds, hwv]

private theorem exists_bind?_of_fits {t : Term} {n : Node} (hb : c.Extends b) (ht : t.Fits c n) :
    ∃ m, t.bind? n b = some m ∧ c.Extends m := by
  cases t with
  | any => exact ⟨b, rfl, hb⟩
  | node k => exact ⟨b, if_pos ht, hb⟩
  | «variable» w =>
      have hw : c.get? w = some n := ht
      simp only [bind?]
      cases hv : b.get? w with
      | none =>
          refine ⟨b.insert w n, rfl, fun v k h => ?_⟩
          rw [OrderedMap.get?_insert] at h
          by_cases hwv : w = v
          · subst hwv
            rw [if_pos rfl] at h
            rw [hw, h]
          · rw [if_neg hwv] at h
            exact hb v k h
      | some k =>
          have hk : k = n := Option.some_inj.1 ((hb _ _ hv).symm.trans hw)
          exact ⟨b, if_pos hk, hb⟩

theorem fits_iff {t : Term} {n : Node} :
    t.Fits m n ↔ t.Accepts n ∧ ∀ v k, t.Binds n v k → m.get? v = some k := by
  cases t with
  | any => simp [Fits, Accepts, Binds]
  | node k => simp [Fits, Accepts, Binds]
  | «variable» w => simp [Fits, Accepts, Binds]

theorem Fits.mono {t : Term} {n : Node} (h : t.Fits b n) (hc : c.Extends b) : t.Fits c n := by
  rw [fits_iff] at h ⊢
  exact ⟨h.1, fun v k hv => hc v k (h.2 v k hv)⟩

end Term

namespace Pattern

variable {p : Pattern} {q : Quad}

theorem Fits.mono (h : p.Fits b q) (hc : c.Extends b) : p.Fits c q where
  graph := h.graph.mono hc
  subject := h.subject.mono hc
  predicate := h.predicate.mono hc
  object := h.object.mono hc

theorem mem_vars {v : Variable} :
    v ∈ p.vars ↔ p.graph = .variable v ∨ p.subject = .variable v ∨ p.predicate = .variable v ∨
      p.object = .variable v := by
  have hvar : ∀ t : Term, t.var? = some v ↔ t = .variable v := by
    intro t
    cases t <;> simp [Term.var?]
  simp [vars, OrderedSet.mem_ofList, hvar, eq_comm (a := Term.variable v)]

theorem Fits.contains (h : p.Fits m q) {v : Variable} (hv : v ∈ p.vars) :
    m.contains v = true := by
  have key : ∀ {t : Term} {n : Node}, t.Fits m n → t = .variable v → m.contains v = true := by
    intro t n ht hvar
    subst hvar
    exact Bindings.contains_of_get? ht
  rcases mem_vars.1 hv with hv | hv | hv | hv
  · exact key h.graph hv
  · exact key h.subject hv
  · exact key h.predicate hv
  · exact key h.object hv

private theorem match?_eq_some_iff_steps :
    p.match? q = some m ↔ ∃ b₁ b₂ b₃, p.graph.bind? q.graph ∅ = some b₁ ∧
      p.subject.bind? q.subject b₁ = some b₂ ∧ p.predicate.bind? q.predicate b₂ = some b₃ ∧
      p.object.bind? q.object b₃ = some m := by
  simp [match?, Option.bind_eq_some_iff]

theorem fits_of_match? (h : p.match? q = some m) : p.Fits m q := by
  obtain ⟨b₁, b₂, b₃, h₁, h₂, h₃, h₄⟩ := match?_eq_some_iff_steps.1 h
  obtain ⟨a₁, e₁⟩ := Term.adds_of_bind? h₁
  obtain ⟨a₂, e₂⟩ := Term.adds_of_bind? h₂
  obtain ⟨a₃, e₃⟩ := Term.adds_of_bind? h₃
  obtain ⟨a₄, e₄⟩ := Term.adds_of_bind? h₄
  have ext₃ : m.Extends b₃ := fun v k hv => (e₄ v k).2 (Or.inl hv)
  have ext₂ : m.Extends b₂ := ext₃.trans fun v k hv => (e₃ v k).2 (Or.inl hv)
  have ext₁ : m.Extends b₁ := ext₂.trans fun v k hv => (e₂ v k).2 (Or.inl hv)
  constructor
  · exact Term.fits_iff.2 ⟨a₁, fun v k hv => ext₁ v k ((e₁ v k).2 (Or.inr hv))⟩
  · exact Term.fits_iff.2 ⟨a₂, fun v k hv => ext₂ v k ((e₂ v k).2 (Or.inr hv))⟩
  · exact Term.fits_iff.2 ⟨a₃, fun v k hv => ext₃ v k ((e₃ v k).2 (Or.inr hv))⟩
  · exact Term.fits_iff.2 ⟨a₄, fun v k hv => (e₄ v k).2 (Or.inr hv)⟩

theorem mem_vars_of_match? (h : p.match? q = some m) {v : Variable}
    (hv : m.contains v = true) : v ∈ p.vars := by
  obtain ⟨b₁, b₂, b₃, h₁, h₂, h₃, h₄⟩ := match?_eq_some_iff_steps.1 h
  obtain ⟨k, hk⟩ := OrderedMap.contains_iff.1 hv
  rw [(Term.adds_of_bind? h₄).2, (Term.adds_of_bind? h₃).2, (Term.adds_of_bind? h₂).2,
    (Term.adds_of_bind? h₁).2] at hk
  rw [mem_vars]
  rcases hk with (((hk | hk) | hk) | hk) | hk
  · cases hk
  · exact Or.inl hk.1
  · exact Or.inr (Or.inl hk.1)
  · exact Or.inr (Or.inr (Or.inl hk.1))
  · exact Or.inr (Or.inr (Or.inr hk.1))

theorem contains_iff_of_match? (h : p.match? q = some m) {v : Variable} :
    m.contains v = true ↔ v ∈ p.vars :=
  ⟨mem_vars_of_match? h, (fits_of_match? h).contains⟩

theorem exists_match?_of_fits (h : p.Fits c q) : ∃ m, p.match? q = some m ∧ c.Extends m := by
  obtain ⟨b₁, h₁, e₁⟩ := Term.exists_bind?_of_fits (Bindings.extends_empty c) h.graph
  obtain ⟨b₂, h₂, e₂⟩ := Term.exists_bind?_of_fits e₁ h.subject
  obtain ⟨b₃, h₃, e₃⟩ := Term.exists_bind?_of_fits e₂ h.predicate
  obtain ⟨m, h₄, e₄⟩ := Term.exists_bind?_of_fits e₃ h.object
  exact ⟨m, match?_eq_some_iff_steps.2 ⟨b₁, b₂, b₃, h₁, h₂, h₃, h₄⟩, e₄⟩

theorem passes_filter_of_match? (h : p.match? q = some m) : p.filter.passes q = true := by
  have key : ∀ {t : Term} {n : Node}, t.Fits m n → QuadFilter.admits t.node? n = true := by
    intro t n ht
    cases t with
    | node k =>
        have hk : k = n := ht
        simp [Term.node?, QuadFilter.admits, hk]
    | _ => rfl
  have hfits := fits_of_match? h
  simp [QuadFilter.passes, filter, key hfits.graph, key hfits.subject, key hfits.predicate,
    key hfits.object]

/-! ## Several patterns -/

variable {ps : List Pattern} {qs : List Quad}

theorem fitsAll_iff : FitsAll b ps qs ↔ List.Forall₂ (Fits b) ps qs := by
  fun_induction FitsAll b ps qs with
  | case1 => simp
  | case2 p ps q qs ih => rw [List.forall₂_cons, ih]
  | case3 ps qs hnil hcons =>
      refine iff_of_false id fun h => ?_
      cases h with
      | nil => exact hnil rfl rfl
      | cons _ _ => exact hcons _ _ _ _ rfl rfl

theorem FitsAll.take (h : FitsAll b ps qs) (n : Nat) : FitsAll b (ps.take n) (qs.take n) :=
  fitsAll_iff.2 (List.forall₂_take n (fitsAll_iff.1 h))

private theorem exists_of_forall₂ {α β : Type} {R : α → β → Prop} {l : List α} {l' : List β}
    (h : List.Forall₂ R l l') {a : α} (ha : a ∈ l) : ∃ b ∈ l', R a b := by
  induction h with
  | nil => exact absurd ha List.not_mem_nil
  | cons hR _ ih =>
      rcases List.mem_cons.1 ha with rfl | ha
      · exact ⟨_, List.mem_cons_self, hR⟩
      · obtain ⟨b, hb, hR'⟩ := ih ha
        exact ⟨b, List.mem_cons_of_mem _ hb, hR'⟩

theorem FitsAll.exists_quad (h : FitsAll b ps qs) (hp : p ∈ ps) : ∃ q ∈ qs, p.Fits b q :=
  exists_of_forall₂ (fitsAll_iff.1 h) hp

theorem FitsAll.exists_pattern (h : FitsAll b ps qs) (hq : q ∈ qs) : ∃ p ∈ ps, p.Fits b q :=
  exists_of_forall₂ (fitsAll_iff.1 h).flip hq

end Pattern

end Entail
