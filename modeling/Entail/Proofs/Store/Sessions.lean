import Entail.Proofs.Store.Mutations
/-!
# Sessions of a store

Mutations, subscriptions and kept contents in any order. A mutation asks for changes of single quads;
those of them that make a difference are carried out and published, one after the other, whoever is
subscribed.
-/

namespace Entail

namespace Contents

variable {c : Contents} {change : Change Quad} {changes more rest : List (Change Quad)}

/-- The changes that make a difference when all of them are carried out in turn. -/
def effects (c : Contents) : List (Change Quad) → List (Change Quad)
  | [] => []
  | change :: rest =>
    if c.contains change.value = !change.isGain then change :: (c.apply change).effects rest
    else c.effects rest

theorem isFresh_iff : change.IsFresh c.Has ↔ c.contains change.value = !change.isGain := by
  cases change with
  | gained q => exact Bool.eq_false_iff.symm
  | lost q => exact Iff.rfl

theorem effects_of_fresh (h : change.IsFresh c.Has) :
    c.effects (change :: rest) = change :: (c.apply change).effects rest :=
  if_pos (isFresh_iff.1 h)

theorem effects_of_not_fresh (h : ¬ change.IsFresh c.Has) :
    c.effects (change :: rest) = c.effects rest :=
  if_neg (mt isFresh_iff.2 h)

theorem allEffective_effects (c : Contents) (changes : List (Change Quad)) :
    c.AllEffective (c.effects changes) := by
  induction changes generalizing c with
  | nil => trivial
  | cons change rest ih =>
      by_cases hfresh : change.IsFresh c.Has
      · rw [effects_of_fresh hfresh]
        exact ⟨isFresh_iff.1 hfresh, ih (c.apply change)⟩
      · rw [effects_of_not_fresh hfresh]
        exact ih c

theorem effects_append : c.effects (changes ++ more) =
    c.effects changes ++ (c.replay (c.effects changes)).effects more := by
  induction changes generalizing c with
  | nil => rfl
  | cons change rest ih =>
      rw [List.cons_append]
      by_cases hfresh : change.IsFresh c.Has
      · rw [effects_of_fresh hfresh, effects_of_fresh hfresh, ih]
        rfl
      · rw [effects_of_not_fresh hfresh, effects_of_not_fresh hfresh]
        exact ih

theorem has_replay_effects :
    (c.replay (c.effects changes)).Has = Change.stepAll changes c.Has := by
  induction changes generalizing c with
  | nil => rfl
  | cons change rest ih =>
      have hcons : Change.stepAll (change :: rest) c.Has =
          Change.stepAll rest (change.step c.Has) := rfl
      rw [hcons]
      by_cases hfresh : change.IsFresh c.Has
      · have hstep : (c.apply change).Has = change.step c.Has := by
          funext q
          exact propext contains_apply
        rw [effects_of_fresh hfresh, ← hstep]
        exact ih
      · have hstep : change.step c.Has = c.Has := by
          funext q
          exact propext (Update.apply_iff_of_not_isFresh hfresh q)
        rw [effects_of_not_fresh hfresh, hstep]
        exact ih

end Contents

/-! ## Mutations -/

namespace Store

private theorem announces_attemptAll (told : Nat → Prop) (σ : Store)
    (changes : List (Change Quad)) :
    σ.Announces told (σ.contents.effects changes) (σ.attemptAll changes).2 := by
  induction changes generalizing σ with
  | nil => exact .refl told σ
  | cons c rest ih =>
      have hrest := ih (σ.attempt c).2
      rw [attemptAll]
      by_cases hfresh : c.IsFresh σ.contents.Has
      · rw [attempt_of_fresh hfresh] at hrest ⊢
        rw [Contents.effects_of_fresh hfresh]
        exact Announces.trans (.take hfresh) hrest
      · rw [attempt_of_not_fresh hfresh] at hrest ⊢
        rw [Contents.effects_of_not_fresh hfresh]
        exact hrest

end Store

/-- The changes asked for that make a difference are carried out, and everybody is told of them. -/
theorem Mutation.announces_effects (m : Mutation) (told : Nat → Prop) (σ : Store) :
    σ.Announces told (σ.contents.effects m.asked) (m.carryOut σ) := by
  rw [carryOut_eq]
  exact Store.announces_attemptAll told σ m.asked

/-! ## Sessions -/

namespace Store

/-- What can be done with a store. -/
inductive Action where
  | mutate (m : Mutation)
  | subscribe
  | unsubscribe (id : Nat)
  | drain (id : Nat)
  /-- Keep the present contents aside. -/
  | keep

/-- The changes asked for, one after the other. -/
def Action.asked : Action → List (Change Quad)
  | mutate m => m.asked
  | _ => []

/-- A store with everything it has handed out: the numbers of subscriptions, the changes that were
drained, and the contents that were kept aside. -/
structure Session where
  store : Store
  opened : List Nat
  drained : List (Nat × List (Change Quad))
  kept : List Contents

namespace Session

def start : Session := ⟨.empty, [], [], []⟩

def carryOut (s : Session) : Action → Session
  | .mutate m => { s with store := m.carryOut s.store }
  | .subscribe =>
    { s with store := s.store.subscribe.2, opened := s.opened ++ [s.store.subscribe.1] }
  | .unsubscribe id => { s with store := (s.store.unsubscribe id).2 }
  | .drain id =>
    { s with
      store := (s.store.drain id).2
      drained := s.drained ++ [(id, (s.store.drain id).1)] }
  | .keep => { s with kept := s.kept ++ [s.store.contents] }

def run (s : Session) (actions : List Action) : Session :=
  actions.foldl carryOut s

/-- Everything drained from a subscription. -/
def drainedFrom (s : Session) (id : Nat) : List (Change Quad) :=
  s.drained.flatMap fun d => if d.1 = id then d.2 else []

variable {s : Session} {actions more : List Action}

theorem run_append : s.run (actions ++ more) = (s.run actions).run more :=
  List.foldl_append

theorem contents_carryOut (s : Session) (a : Action) :
    (s.carryOut a).store.contents =
      s.store.contents.replay (s.store.contents.effects a.asked) := by
  cases a with
  | mutate m => exact (m.announces_effects (fun _ => True) s.store).contents_eq
  | subscribe => rfl
  | unsubscribe id => rfl
  | drain id => rfl
  | keep => rfl

theorem contents_run (s : Session) (actions : List Action) :
    (s.run actions).store.contents =
      s.store.contents.replay (s.store.contents.effects (actions.flatMap Action.asked)) := by
  induction actions generalizing s with
  | nil => rfl
  | cons a rest ih =>
      have hrun : s.run (a :: rest) = (s.carryOut a).run rest := rfl
      rw [hrun, ih, List.flatMap_cons, Contents.effects_append, Contents.replay_append,
        contents_carryOut]

end Session

end Store

end Entail
