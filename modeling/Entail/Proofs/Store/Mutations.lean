import Entail.Proofs.Store.Published
/-!
# Mutations

Changes that others make to a store. Every subscription is told of the quads that come and go, one
after the other, and what becomes of the contents does not depend on who is told.
-/

namespace Entail

/-! ## Changes asked for -/

namespace Store

variable {σ σ' : Store} {c : Change Quad}

/-- Insert or remove a single quad, which is well-formed. -/
def attempt (σ : Store) : Change Quad → Bool × Store
  | .gained q => σ.insertValid q
  | .lost q => σ.remove q

/-- Insert and remove quads in turn, counting the changes. -/
def attemptAll (σ : Store) : List (Change Quad) → Nat × Store
  | [] => (0, σ)
  | c :: rest =>
    let first := σ.attempt c
    let others := attemptAll first.2 rest
    (first.1.toNat + others.1, others.2)

theorem attempt_of_fresh (h : c.IsFresh σ.contents.Has) : σ.attempt c = (true, σ.take c) := by
  cases c with
  | gained q => exact insertValid_of_not_has h
  | lost q => exact remove_of_has h

theorem attempt_of_not_fresh (h : ¬ c.IsFresh σ.contents.Has) : σ.attempt c = (false, σ) := by
  cases c with
  | gained q => exact insertValid_of_has (not_not.1 h)
  | lost q => exact remove_of_not_has h

theorem removeAll_eq (σ : Store) (qs : List Quad) :
    σ.removeAll qs = σ.attemptAll (qs.map .lost) := by
  induction qs generalizing σ with
  | nil => rfl
  | cons q rest ih =>
      rw [removeAll, ih]
      rfl

theorem insertAllValid_eq (σ : Store) (qs : List Quad) :
    σ.insertAllValid qs = σ.attemptAll (qs.map .gained) := by
  induction qs generalizing σ with
  | nil => rfl
  | cons q rest ih =>
      rw [insertAllValid, ih]
      rfl

theorem attemptAll_append (σ : Store) (changes more : List (Change Quad)) :
    (σ.attemptAll (changes ++ more)).2 = ((σ.attemptAll changes).2.attemptAll more).2 := by
  induction changes generalizing σ with
  | nil => rfl
  | cons c rest ih => exact ih (σ.attempt c).2

theorem attemptAll_induction {P : Store → Prop} {changes : List (Change Quad)}
    (hP : ∀ σ, ∀ c ∈ changes, c.IsFresh σ.contents.Has → P σ → P (σ.take c)) (h : P σ) :
    P (σ.attemptAll changes).2 := by
  induction changes generalizing σ with
  | nil => exact h
  | cons c rest ih =>
      refine ih (fun σ' x hx => hP σ' x (List.mem_cons_of_mem c hx)) ?_
      by_cases hfresh : c.IsFresh σ.contents.Has
      · rw [attempt_of_fresh hfresh]
        exact hP σ c List.mem_cons_self hfresh h
      · rw [attempt_of_not_fresh hfresh]
        exact h

theorem contents_attemptAll (h : σ.contents = σ'.contents) (changes : List (Change Quad)) :
    (σ.attemptAll changes).2.contents = (σ'.attemptAll changes).2.contents := by
  induction changes generalizing σ σ' with
  | nil => exact h
  | cons c rest ih =>
      refine ih ?_
      by_cases hfresh : c.IsFresh σ.contents.Has
      · rw [attempt_of_fresh hfresh, attempt_of_fresh (h ▸ hfresh)]
        simp only [take, h]
      · rw [attempt_of_not_fresh hfresh, attempt_of_not_fresh (h ▸ hfresh)]
        exact h

theorem firstInvalid?_eq_none_iff {qs : List Quad} :
    firstInvalid? qs = none ↔ ∀ q ∈ qs, q.validate = .ok () := by
  rw [firstInvalid?, List.findSome?_eq_none_iff]
  refine forall₂_congr fun q _ => ?_
  cases q.validate with
  | error e => simp
  | ok u => simp

end Store

/-! ## Mutations -/

/-- A change of the store that the engine has no part in. -/
inductive Mutation where
  | insert (q : Quad)
  | remove (q : Quad)
  | apply (c : Changeset)

namespace Mutation

/-- The quads that may come or go. -/
def quads : Mutation → List Quad
  | insert q => [q]
  | remove q => [q]
  | apply c => c.removed ++ c.added

/-- The store after the change; one that is refused makes no difference. -/
def carryOut (σ : Store) : Mutation → Store
  | insert q =>
    match σ.insert q with
    | .ok (_, σ) => σ
    | .error _ => σ
  | remove q => (σ.remove q).2
  | apply c =>
    match σ.apply c with
    | .ok (_, σ) => σ
    | .error _ => σ

/-- The changes asked for, one after the other; none if the mutation is refused. -/
def asked : Mutation → List (Change Quad)
  | insert q => if q.validate = .ok () then [.gained q] else []
  | remove q => [.lost q]
  | apply c =>
    if ∀ q ∈ c.added, q.validate = .ok () then c.removed.map .lost ++ c.added.map .gained else []

theorem carryOut_eq (m : Mutation) (σ : Store) : m.carryOut σ = (σ.attemptAll m.asked).2 := by
  cases m with
  | insert q =>
      rw [asked, carryOut, Store.insert]
      cases q.validate with
      | error e =>
          rw [if_neg (by simp)]
          rfl
      | ok u =>
          rw [if_pos rfl]
          rfl
  | remove q => rfl
  | apply c =>
      rw [asked, carryOut, Store.apply]
      cases hvalid : Store.firstInvalid? c.added with
      | some e =>
          have hinvalid : ¬ ∀ q ∈ c.added, q.validate = .ok () := by
            rw [← Store.firstInvalid?_eq_none_iff, hvalid]
            exact Option.some_ne_none e
          rw [if_neg hinvalid]
          rfl
      | none =>
          rw [if_pos (Store.firstInvalid?_eq_none_iff.1 hvalid), Store.attemptAll_append,
            ← Store.removeAll_eq, ← Store.insertAllValid_eq]

theorem value_mem_quads (m : Mutation) : ∀ c ∈ m.asked, c.value ∈ m.quads := by
  intro c hc
  cases m with
  | insert q =>
      rw [asked] at hc
      split at hc
      · obtain rfl := List.mem_singleton.1 hc
        exact List.mem_singleton_self q
      · exact absurd hc List.not_mem_nil
  | remove q =>
      obtain rfl := List.mem_singleton.1 hc
      exact List.mem_singleton_self q
  | apply changes =>
      rw [asked] at hc
      split at hc
      · rcases List.mem_append.1 hc with hc | hc
        · obtain ⟨q, hq, rfl⟩ := List.mem_map.1 hc
          exact List.mem_append_left changes.added hq
        · obtain ⟨q, hq, rfl⟩ := List.mem_map.1 hc
          exact List.mem_append_right changes.removed hq
      · exact absurd hc List.not_mem_nil

variable {σ σ' : Store} {P : Store → Prop} {allowed : Quad → Prop}

theorem carryOut_induction (m : Mutation) (hm : ∀ q ∈ m.quads, allowed q)
    (hP : ∀ σ c, allowed c.value → c.IsFresh σ.contents.Has → P σ → P (σ.take c)) (h : P σ) :
    P (m.carryOut σ) := by
  rw [carryOut_eq]
  exact Store.attemptAll_induction (fun σ c hc => hP σ c (hm _ (m.value_mem_quads c hc))) h

theorem contents_carryOut (m : Mutation) (h : σ.contents = σ'.contents) :
    (m.carryOut σ).contents = (m.carryOut σ').contents := by
  rw [carryOut_eq, carryOut_eq]
  exact Store.contents_attemptAll h m.asked

theorem announces (m : Mutation) (σ : Store) :
    ∃ changes, (∀ c ∈ changes, c.value ∈ m.quads) ∧
      σ.Announces (fun _ => True) changes (m.carryOut σ) := by
  have hpublishes : Publishes (fun c => c.value ∈ m.quads) σ (m.carryOut σ) :=
    m.carryOut_induction (fun _ => id) (fun _ _ hc hfresh h => .take h hc hfresh) (.refl σ)
  exact hpublishes.announces

end Mutation

end Entail
