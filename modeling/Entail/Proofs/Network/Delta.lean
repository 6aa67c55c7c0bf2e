import Entail.Change
import Entail.Proofs.Except
import Mathlib.Data.List.Nodup
/-!
# Deltas

What lies between two sets: the list of elements that one of them has beyond the other, each of them
once, and the list of changes that leads from one to the other and mentions each element at most once.
Any list of changes makes of a set, element by element, what the last change of the element says.
-/

namespace Entail

variable {α β : Type}

/-- `new` includes `old`, and `out` lists what it has beyond `old`. -/
structure Gains (old new : α → Prop) (out : List α) : Prop where
  nodup : out.Nodup
  mem_iff : ∀ a, a ∈ out ↔ new a ∧ ¬ old a
  kept : ∀ a, old a → new a

theorem Gains.cons {old new : α → Prop} {a : α} {rest : List α} (h : Gains old new (a :: rest)) :
    new a ∧ ¬ old a ∧ Gains (fun x => old x ∨ x = a) new rest := by
  have ha := (h.mem_iff a).1 List.mem_cons_self
  have hnot : a ∉ rest := (List.nodup_cons.1 h.nodup).1
  refine ⟨ha.1, ha.2, (List.nodup_cons.1 h.nodup).2, fun x => ?_, fun x hx => ?_⟩
  · constructor
    · intro hx
      have hnew := (h.mem_iff x).1 (List.mem_cons_of_mem _ hx)
      refine ⟨hnew.1, ?_⟩
      rintro (hold | rfl)
      · exact hnew.2 hold
      · exact hnot hx
    · rintro ⟨hnew, hx⟩
      rw [not_or] at hx
      exact List.mem_of_ne_of_mem hx.2 ((h.mem_iff x).2 ⟨hnew, hx.1⟩)
  · rcases hx with hx | rfl
    · exact h.kept x hx
    · exact ha.1

theorem Gains.iff_of_nil {old new : α → Prop} (h : Gains old new []) (a : α) : old a ↔ new a := by
  constructor
  · exact h.kept a
  · intro hnew
    by_contra hold
    exact List.not_mem_nil ((h.mem_iff a).2 ⟨hnew, hold⟩)

theorem Gains.congr {old old' new new' : α → Prop} {out : List α} (h : Gains old new out)
    (ho : ∀ a, old a ↔ old' a) (hn : ∀ a, new a ↔ new' a) : Gains old' new' out := by
  have ho' : old = old' := by
    funext a
    exact propext (ho a)
  have hn' : new = new' := by
    funext a
    exact propext (hn a)
  rw [← ho', ← hn']
  exact h

theorem Gains.cons_large {old new : α → Prop} {a : α} {rest : List α}
    (h : Gains old new (a :: rest)) :
    new a ∧ ¬ old a ∧ Gains old (fun x => new x ∧ x ≠ a) rest := by
  have ha := (h.mem_iff a).1 List.mem_cons_self
  have hnot : a ∉ rest := (List.nodup_cons.1 h.nodup).1
  refine ⟨ha.1, ha.2, (List.nodup_cons.1 h.nodup).2, fun x => ?_, fun x hx => ?_⟩
  · constructor
    · intro hx
      have hnew := (h.mem_iff x).1 (List.mem_cons_of_mem _ hx)
      exact ⟨⟨hnew.1, fun heq => hnot (heq ▸ hx)⟩, hnew.2⟩
    · rintro ⟨⟨hnew, hne⟩, hold⟩
      exact List.mem_of_ne_of_mem hne ((h.mem_iff x).2 ⟨hnew, hold⟩)
  · exact ⟨h.kept x hx, fun heq => ha.2 (heq ▸ hx)⟩

namespace Update

/-- The set after `a` entered or left. -/
def apply (u : Update) (held : α → Prop) (a : α) : α → Prop :=
  match u with
  | .insert => fun x => held x ∨ x = a
  | .remove => fun x => held x ∧ x ≠ a

/-- The entry or exit of `a` makes a difference. -/
def IsFresh (u : Update) (held : α → Prop) (a : α) : Prop :=
  match u with
  | .insert => ¬ held a
  | .remove => held a

/-- `out` lists what enters or leaves on the way from `old` to `new`. -/
def Moves (u : Update) (old new : α → Prop) (out : List α) : Prop :=
  match u with
  | .insert => Gains old new out
  | .remove => Gains new old out

variable {u : Update} {old new : α → Prop} {a : α} {rest out : List α}

theorem Moves.nodup (h : u.Moves old new out) : out.Nodup := by
  cases u with
  | insert => exact Gains.nodup h
  | remove => exact Gains.nodup h

theorem Moves.iff_of_nil (h : u.Moves old new []) (a : α) : old a ↔ new a := by
  cases u with
  | insert => exact Gains.iff_of_nil h a
  | remove => exact (Gains.iff_of_nil h a).symm

theorem Moves.cons (h : u.Moves old new (a :: rest)) :
    u.IsFresh old a ∧ u.Moves (u.apply old a) new rest := by
  cases u with
  | insert => exact (Gains.cons h).2
  | remove => exact ⟨(Gains.cons_large h).1, (Gains.cons_large h).2.2⟩

theorem Moves.of_mem (h : u.Moves old new out) (ha : a ∈ out) : old a ∨ new a := by
  cases u with
  | insert => exact Or.inr ((Gains.mem_iff h a).1 ha).1
  | remove => exact Or.inl ((Gains.mem_iff h a).1 ha).1

theorem moves_nil (u : Update) (old : α → Prop) : u.Moves old old [] := by
  have h : Gains old old [] := ⟨List.nodup_nil, by simp, fun _ => id⟩
  cases u with
  | insert => exact h
  | remove => exact h

theorem moves_apply (h : u.IsFresh old a) : u.Moves old (u.apply old a) [a] := by
  cases u with
  | insert =>
      refine ⟨List.nodup_singleton a, fun x => ?_, fun x => Or.inl⟩
      rw [List.mem_singleton]
      constructor
      · rintro rfl
        exact ⟨Or.inr rfl, h⟩
      · rintro ⟨hx | hx, hnot⟩
        · exact absurd hx hnot
        · exact hx
  | remove =>
      refine ⟨List.nodup_singleton a, fun x => ?_, fun x hx => hx.1⟩
      rw [List.mem_singleton]
      constructor
      · rintro rfl
        exact ⟨h, fun hx => hx.2 rfl⟩
      · rintro ⟨hx, hnot⟩
        by_contra hne
        exact hnot ⟨hx, hne⟩

theorem apply_iff_of_not_isFresh (h : ¬ u.IsFresh old a) (x : α) : u.apply old a x ↔ old x := by
  cases u with
  | insert =>
      have ha : old a := not_not.1 h
      refine or_iff_left_of_imp ?_
      rintro rfl
      exact ha
  | remove =>
      refine and_iff_left_of_imp ?_
      rintro hx rfl
      exact h hx

theorem apply_iff_of_ne {x : α} (h : x ≠ a) : u.apply old a x ↔ old x := by
  cases u with
  | insert => exact or_iff_left h
  | remove => exact and_iff_left h

theorem isFresh_apply_iff {x : α} :
    u.IsFresh (u.apply old a) x ↔ u.IsFresh old x ∧ x ≠ a := by
  cases u with
  | insert => exact not_or
  | remove => exact Iff.rfl

theorem exists_moves_apply (u : Update) (old : α → Prop) (a : α) :
    ∃ moved, u.Moves old (u.apply old a) moved ∧ ∀ x, x ∈ moved ↔ x = a ∧ u.IsFresh old a := by
  by_cases h : u.IsFresh old a
  · exact ⟨[a], moves_apply h, fun x => by simp [h]⟩
  · have heq : u.apply old a = old := by
      funext x
      exact propext (apply_iff_of_not_isFresh h x)
    refine ⟨[], ?_, fun x => by simp [h]⟩
    rw [heq]
    exact moves_nil u old

end Update

/-! ## Lists of changes -/

/-- The change by which an element enters or leaves. -/
def Update.change : Update → α → Change α
  | insert => .gained
  | remove => .lost

namespace Change

/-- Something gained enters and something lost leaves. -/
def update : Change α → Update
  | gained _ => .insert
  | lost _ => .remove

/-- The set after the change. -/
def step (c : Change α) (held : α → Prop) : α → Prop :=
  c.update.apply held c.value

/-- The change makes a difference. -/
def IsFresh (c : Change α) (held : α → Prop) : Prop :=
  c.update.IsFresh held c.value

end Change

namespace Update

variable {u : Update} {held : α → Prop} {a : α}

theorem step_change : (u.change a).step held = u.apply held a := by
  cases u with
  | insert => rfl
  | remove => rfl

theorem isFresh_change_iff : (u.change a).IsFresh held ↔ u.IsFresh held a := by
  cases u with
  | insert => exact Iff.rfl
  | remove => exact Iff.rfl

end Update

/-- The changes lead from `old` to `new`, and no element changes twice. -/
structure Alters (changes : List (Change α)) (old new : α → Prop) : Prop where
  nodup : (changes.map Change.value).Nodup
  gained_iff : ∀ a, .gained a ∈ changes ↔ new a ∧ ¬ old a
  lost_iff : ∀ a, .lost a ∈ changes ↔ old a ∧ ¬ new a

namespace Alters

variable {changes more : List (Change α)} {old mid new : α → Prop}

theorem mem_values_iff {a : α} :
    a ∈ changes.map Change.value ↔ .gained a ∈ changes ∨ .lost a ∈ changes := by
  rw [List.mem_map]
  constructor
  · rintro ⟨c | c, hc, rfl⟩
    · exact Or.inl hc
    · exact Or.inr hc
  · rintro (hc | hc)
    · exact ⟨_, hc, rfl⟩
    · exact ⟨_, hc, rfl⟩

theorem mem_values (h : Alters changes old new) {a : α} :
    a ∈ changes.map Change.value ↔ ¬ (old a ↔ new a) := by
  rw [mem_values_iff, h.gained_iff, h.lost_iff]
  tauto

theorem congr {old' new' : α → Prop} (h : Alters changes old new) (ho : ∀ a, old a ↔ old' a)
    (hn : ∀ a, new a ↔ new' a) : Alters changes old' new' := by
  have ho' : old = old' := by
    funext a
    exact propext (ho a)
  have hn' : new = new' := by
    funext a
    exact propext (hn a)
  rw [← ho', ← hn']
  exact h

theorem iff_of_nil (h : Alters [] old new) (a : α) : old a ↔ new a := by
  by_contra hne
  exact List.not_mem_nil (h.mem_values.2 hne)

/-- Two lists of changes in a row, if nothing that the first list changes is changed back. -/
theorem append (h₁ : Alters changes old mid) (h₂ : Alters more mid new)
    (hsep : ∀ a, ¬ (old a ↔ mid a) → (mid a ↔ new a)) : Alters (changes ++ more) old new := by
  refine ⟨?_, fun a => ?_, fun a => ?_⟩
  · rw [List.map_append, List.nodup_append']
    refine ⟨h₁.nodup, h₂.nodup, fun a ha ha' => ?_⟩
    exact h₂.mem_values.1 ha' (hsep a (h₁.mem_values.1 ha))
  · rw [List.mem_append, h₁.gained_iff, h₂.gained_iff]
    have := hsep a
    tauto
  · rw [List.mem_append, h₁.lost_iff, h₂.lost_iff]
    have := hsep a
    tauto

theorem nil (old : α → Prop) : Alters [] old old where
  nodup := List.nodup_nil
  gained_iff := by simp
  lost_iff := by simp

theorem cons {c : Change α} {rest : List (Change α)} (h : Alters (c :: rest) old new) :
    c.IsFresh old ∧ Alters rest (c.step old) new := by
  have hnodup := List.nodup_cons.1 h.nodup
  have hnot : ∀ a, (.gained a ∈ rest ∨ .lost a ∈ rest) → a ≠ c.value := by
    intro a ha heq
    exact hnodup.1 (heq ▸ mem_values_iff.2 ha)
  cases c with
  | gained b =>
      have hb := (h.gained_iff b).1 List.mem_cons_self
      refine ⟨hb.2, hnodup.2, fun a => ?_, fun a => ?_⟩
      · have hgain := h.gained_iff a
        have hne := hnot a
        simp only [List.mem_cons, Change.gained.injEq] at hgain
        simp only [Change.step, Change.update, Change.value, Update.apply] at hne ⊢
        tauto
      · have hlost := h.lost_iff a
        have hne := hnot a
        simp only [List.mem_cons, reduceCtorEq, false_or] at hlost
        simp only [Change.step, Change.update, Change.value, Update.apply] at hne ⊢
        rw [hlost]
        constructor
        · rintro ⟨hold, hnew⟩
          exact ⟨Or.inl hold, hnew⟩
        · rintro ⟨hold | rfl, hnew⟩
          · exact ⟨hold, hnew⟩
          · exact absurd hb.1 hnew
  | lost b =>
      have hb := (h.lost_iff b).1 List.mem_cons_self
      refine ⟨hb.1, hnodup.2, fun a => ?_, fun a => ?_⟩
      · have hgain := h.gained_iff a
        have hne := hnot a
        simp only [List.mem_cons, reduceCtorEq, false_or] at hgain
        simp only [Change.step, Change.update, Change.value, Update.apply] at hne ⊢
        rw [hgain]
        constructor
        · rintro ⟨hnew, hold⟩
          exact ⟨hnew, fun hx => hold hx.1⟩
        · rintro ⟨hnew, hold⟩
          refine ⟨hnew, fun hx => hold ⟨hx, ?_⟩⟩
          rintro rfl
          exact hb.2 hnew
      · have hlost := h.lost_iff a
        have hne := hnot a
        simp only [List.mem_cons, Change.lost.injEq] at hlost
        simp only [Change.step, Change.update, Change.value, Update.apply] at hne ⊢
        tauto

theorem singleton {c : Change α} (h : c.IsFresh old) : Alters [c] old (c.step old) := by
  cases c with
  | gained b =>
      have hb : ¬ old b := h
      refine ⟨List.nodup_singleton _, fun a => ?_, fun a => ?_⟩
      · simp only [List.mem_singleton, Change.gained.injEq, Change.step, Change.update,
          Change.value, Update.apply]
        constructor
        · rintro rfl
          exact ⟨Or.inr rfl, hb⟩
        · rintro ⟨hold | heq, hnot⟩
          · exact absurd hold hnot
          · exact heq
      · simp only [List.mem_singleton, reduceCtorEq, Change.step, Change.update, Change.value,
          Update.apply]
        tauto
  | lost b =>
      have hb : old b := h
      refine ⟨List.nodup_singleton _, fun a => ?_, fun a => ?_⟩
      · simp only [List.mem_singleton, reduceCtorEq, Change.step, Change.update, Change.value,
          Update.apply]
        tauto
      · simp only [List.mem_singleton, Change.lost.injEq, Change.step, Change.update,
          Change.value, Update.apply]
        constructor
        · rintro rfl
          exact ⟨hb, fun hx => hx.2 rfl⟩
        · rintro ⟨hold, hnot⟩
          by_contra hne
          exact hnot ⟨hold, hne⟩

theorem of_iff (h : ∀ a, old a ↔ new a) : Alters [] old new :=
  (nil old).congr (fun _ => Iff.rfl) h

theorem of_gained {a : α} (ha : ¬ old a) (ha' : new a) (hother : ∀ x, x ≠ a → (old x ↔ new x)) :
    Alters [.gained a] old new := by
  refine (singleton (c := .gained a) ha).congr (fun _ => Iff.rfl) fun x => ?_
  by_cases hx : x = a
  · subst hx
    exact iff_of_true (Or.inr rfl) ha'
  · exact (or_iff_left hx).trans (hother x hx)

theorem of_lost {a : α} (ha : old a) (ha' : ¬ new a) (hother : ∀ x, x ≠ a → (old x ↔ new x)) :
    Alters [.lost a] old new := by
  refine (singleton (c := .lost a) ha).congr (fun _ => Iff.rfl) fun x => ?_
  by_cases hx : x = a
  · subst hx
    exact iff_of_false (fun h => h.2 rfl) ha'
  · exact (and_iff_left hx).trans (hother x hx)

end Alters

theorem Gains.alters {old new : α → Prop} {out : List α} (h : Gains old new out) :
    Alters (out.map .gained) old new := by
  refine ⟨?_, fun a => ?_, fun a => ?_⟩
  · have hval : (out.map Change.gained).map Change.value = out := by
      rw [List.map_map]
      exact List.map_id out
    rw [hval]
    exact h.nodup
  · simp [h.mem_iff]
  · have := h.kept a
    simp
    tauto

theorem Gains.alters_lost {old new : α → Prop} {out : List α} (h : Gains old new out) :
    Alters (out.map .lost) new old := by
  refine ⟨?_, fun a => ?_, fun a => ?_⟩
  · have hval : (out.map Change.lost).map Change.value = out := by
      rw [List.map_map]
      exact List.map_id out
    rw [hval]
    exact h.nodup
  · have := h.kept a
    simp
    tauto
  · simp [h.mem_iff]

/-! ## Changes in turn -/

namespace Change

variable {a : α} {c : Change α} {changes more : List (Change α)} {held held' : α → Prop}

theorem step_value_iff : c.step held c.value ↔ c.isGain = true := by
  cases c with
  | gained b => exact iff_of_true (Or.inr rfl) rfl
  | lost b => exact iff_of_false (fun h => h.2 rfl) nofun

theorem step_iff_of_ne (h : a ≠ c.value) : c.step held a ↔ held a :=
  Update.apply_iff_of_ne h

/-- The set after all changes in turn. -/
def stepAll (changes : List (Change α)) (held : α → Prop) : α → Prop :=
  changes.foldl (fun held c => c.step held) held

theorem stepAll_append : stepAll (changes ++ more) held = stepAll more (stepAll changes held) :=
  List.foldl_append

theorem stepAll_filterMap_cons (f : β → Option (Change α)) (x : β) (rest : List β)
    (held : α → Prop) :
    stepAll ((x :: rest).filterMap f) held =
      stepAll (rest.filterMap f) (stepAll (f x).toList held) := by
  rw [List.filterMap_cons]
  cases f x with
  | none => rfl
  | some c => rfl

theorem stepAll_filterMap_concat (f : β → Option (Change α)) (l : List β) (x : β)
    (held : α → Prop) :
    stepAll ((l ++ [x]).filterMap f) held =
      stepAll (f x).toList (stepAll (l.filterMap f) held) := by
  rw [List.filterMap_append, stepAll_append, stepAll_filterMap_cons]
  rfl

/-- The last change that mentions an element decides; if there is none, nothing changes for it. -/
theorem stepAll_cases (changes : List (Change α)) (a : α) :
    (.gained a ∈ changes ∧ ∀ held : α → Prop, stepAll changes held a) ∨
      (.lost a ∈ changes ∧ ∀ held : α → Prop, ¬ stepAll changes held a) ∨
      (.gained a ∉ changes ∧ .lost a ∉ changes ∧
        ∀ held : α → Prop, stepAll changes held a ↔ held a) := by
  induction changes with
  | nil => exact Or.inr (Or.inr ⟨List.not_mem_nil, List.not_mem_nil, fun _ => Iff.rfl⟩)
  | cons c rest ih =>
      rcases ih with ⟨hmem, hall⟩ | ⟨hmem, hall⟩ | ⟨hgained, hlost, hall⟩
      · exact Or.inl ⟨List.mem_cons_of_mem _ hmem, fun held => hall (c.step held)⟩
      · exact Or.inr (Or.inl ⟨List.mem_cons_of_mem _ hmem, fun held => hall (c.step held)⟩)
      · by_cases heq : a = c.value
        · subst heq
          cases c with
          | gained b =>
              refine Or.inl ⟨List.mem_cons_self, fun held => ?_⟩
              exact (hall _).2 (step_value_iff.2 rfl)
          | lost b =>
              refine Or.inr (Or.inl ⟨List.mem_cons_self, fun held => ?_⟩)
              exact fun h => nomatch step_value_iff.1 ((hall _).1 h)
        · refine Or.inr (Or.inr ⟨fun h => ?_, fun h => ?_, fun held => ?_⟩)
          · rcases List.mem_cons.1 h with rfl | h
            · exact heq rfl
            · exact hgained h
          · rcases List.mem_cons.1 h with rfl | h
            · exact heq rfl
            · exact hlost h
          · exact (hall _).trans (step_iff_of_ne heq)

theorem stepAll_iff_of_not_mem (h : a ∉ changes.map Change.value) :
    stepAll changes held a ↔ held a := by
  rcases stepAll_cases changes a with ⟨hmem, _⟩ | ⟨hmem, _⟩ | ⟨_, _, hall⟩
  · exact absurd (Alters.mem_values_iff.2 (Or.inl hmem)) h
  · exact absurd (Alters.mem_values_iff.2 (Or.inr hmem)) h
  · exact hall held

theorem stepAll_congr (h : held a ↔ held' a) :
    stepAll changes held a ↔ stepAll changes held' a := by
  rcases stepAll_cases changes a with ⟨_, hall⟩ | ⟨_, hall⟩ | ⟨_, _, hall⟩
  · exact iff_of_true (hall _) (hall _)
  · exact iff_of_false (hall _) (hall _)
  · rw [hall, hall, h]

theorem stepAll_of_stepAll {past : α → Prop} (h : stepAll changes past a) (ha : held a) :
    stepAll changes held a := by
  rcases stepAll_cases changes a with ⟨_, hall⟩ | ⟨_, hall⟩ | ⟨_, _, hall⟩
  · exact hall _
  · exact absurd h (hall _)
  · exact (hall _).2 ha

theorem stepAll_stepAll (a : α) :
    stepAll changes (stepAll changes held) a ↔ stepAll changes held a := by
  rcases stepAll_cases changes a with ⟨_, hall⟩ | ⟨_, hall⟩ | ⟨_, _, hall⟩
  · exact iff_of_true (hall _) (hall _)
  · exact iff_of_false (hall _) (hall _)
  · rw [hall]

theorem lost_mem_of_stepAll (ha : held a) (h : ¬ stepAll changes held a) : .lost a ∈ changes := by
  rcases stepAll_cases changes a with ⟨_, hall⟩ | ⟨hmem, _⟩ | ⟨_, _, hall⟩
  · exact absurd (hall _) h
  · exact hmem
  · exact absurd ((hall _).2 ha) h

theorem gained_mem_of_stepAll (ha : ¬ held a) (h : stepAll changes held a) :
    .gained a ∈ changes := by
  rcases stepAll_cases changes a with ⟨hmem, _⟩ | ⟨_, hall⟩ | ⟨_, _, hall⟩
  · exact hmem
  · exact absurd h (hall _)
  · exact absurd ((hall _).1 h) ha

theorem stepAll_losses (l : List α) :
    stepAll (l.map .lost) held a ↔ held a ∧ a ∉ l := by
  induction l generalizing held with
  | nil => exact (and_iff_left List.not_mem_nil).symm
  | cons b rest ih =>
      rw [List.mem_cons, not_or, ← and_assoc]
      exact ih

theorem stepAll_gains (l : List α) :
    stepAll (l.map .gained) held a ↔ held a ∨ a ∈ l := by
  induction l generalizing held with
  | nil => exact (or_iff_left List.not_mem_nil).symm
  | cons b rest ih =>
      rw [List.mem_cons, ← or_assoc]
      exact ih

/-- Each change in turn makes a difference. -/
def AllFresh : List (Change α) → (α → Prop) → Prop
  | [], _ => True
  | c :: rest, held => c.IsFresh held ∧ AllFresh rest (c.step held)

theorem allFresh_append_iff :
    AllFresh (changes ++ more) held ↔
      AllFresh changes held ∧ AllFresh more (stepAll changes held) := by
  induction changes generalizing held with
  | nil => exact (and_iff_right trivial).symm
  | cons c rest ih =>
      have hsplit : AllFresh (c :: rest ++ more) held ↔
          c.IsFresh held ∧ AllFresh (rest ++ more) (c.step held) := Iff.rfl
      rw [hsplit, ih, ← and_assoc]
      exact Iff.rfl

open Classical in
theorem AllFresh.count_eq (h : AllFresh changes held) (a : α) :
    changes.count (.gained a) + (if held a then 1 else 0) =
      changes.count (.lost a) + (if stepAll changes held a then 1 else 0) := by
  induction changes generalizing held with
  | nil => rfl
  | cons c rest ih =>
      have hrest := ih h.2
      have hall : stepAll (c :: rest) held = stepAll rest (c.step held) := rfl
      rw [hall]
      by_cases ha : a = c.value
      · cases c with
        | gained b =>
            obtain rfl : a = b := ha
            have hold : ¬ held a := h.1
            have hnew : step (.gained a) held a := Or.inr rfl
            rw [if_pos hnew] at hrest
            have hother : (Change.gained a : Change α) ≠ .lost a := nofun
            rw [if_neg hold, List.count_cons_self, List.count_cons_of_ne hother]
            omega
        | lost b =>
            obtain rfl : a = b := ha
            have hold : held a := h.1
            have hnew : ¬ step (.lost a) held a := fun hb => hb.2 rfl
            rw [if_neg hnew] at hrest
            have hother : (Change.lost a : Change α) ≠ .gained a := nofun
            rw [if_pos hold, List.count_cons_self, List.count_cons_of_ne hother]
            omega
      · have hgained : c ≠ .gained a := fun heq => ha (congrArg value heq).symm
        have hlost : c ≠ .lost a := fun heq => ha (congrArg value heq).symm
        rw [List.count_cons_of_ne hgained, List.count_cons_of_ne hlost, ← hrest]
        simp only [step_iff_of_ne ha]

theorem AllFresh.stepAll_iff_of_perm (h : AllFresh changes held) (h' : AllFresh more held)
    (hperm : changes.Perm more) (a : α) : stepAll changes held a ↔ stepAll more held a := by
  classical
  have hcount := h.count_eq a
  have hcount' := h'.count_eq a
  rw [hperm.count_eq, hperm.count_eq] at hcount
  have hsame := Nat.add_left_cancel (hcount.symm.trans hcount')
  by_cases hl : stepAll changes held a <;> by_cases hr : stepAll more held a <;> simp_all

/-- The changes lead from `old` to `new`, and none of them tells what is known already. -/
structure Leads (changes : List (Change α)) (old new : α → Prop) : Prop where
  fresh : AllFresh changes old
  reaches : ∀ a, stepAll changes old a ↔ new a

variable {old mid new : α → Prop}

theorem leads_nil (old : α → Prop) : Leads [] old old :=
  ⟨trivial, fun _ => Iff.rfl⟩

theorem Leads.cons (hfresh : c.IsFresh old) (h : Leads changes (c.step old) new) :
    Leads (c :: changes) old new :=
  ⟨⟨hfresh, h.fresh⟩, h.reaches⟩

theorem Leads.append (h : Leads changes old mid) (h' : Leads more mid new) :
    Leads (changes ++ more) old new := by
  have hmid : stepAll changes old = mid := by
    funext a
    exact propext (h.reaches a)
  subst hmid
  refine ⟨allFresh_append_iff.2 ⟨h.fresh, h'.fresh⟩, fun a => ?_⟩
  rw [stepAll_append]
  exact h'.reaches a

end Change

theorem Alters.leads {changes : List (Change α)} {old new : α → Prop}
    (h : Alters changes old new) : Change.Leads changes old new := by
  induction changes generalizing old with
  | nil => exact ⟨trivial, h.iff_of_nil⟩
  | cons c rest ih => exact (ih h.cons.2).cons h.cons.1

end Entail
