import Entail.Pattern.Fit
import Entail.Proofs.Except
/-!
# Combining bindings

Bindings are sets of pairs of a variable and a node. Merging is the union of two such sets, defined
when the union is again a set of bindings, and obeys the laws of a union where it is defined. Join
keys are look-ups, and equal keys on the shared variables mean that there is no conflict.
-/

namespace Entail.Bindings

variable {a b c m : Bindings}

theorem contains_of_get? {v : Variable} {n : Node} (h : b.get? v = some n) :
    b.contains v = true :=
  OrderedMap.contains_iff.2 ⟨n, h⟩

theorem Extends.refl (b : Bindings) : b.Extends b :=
  fun _ _ h => h

theorem Extends.trans (hab : a.Extends b) (hbc : b.Extends c) : a.Extends c :=
  fun v n h => hab v n (hbc v n h)

theorem extends_empty (b : Bindings) : b.Extends ∅ :=
  fun _ _ h => by cases h

/-- `m` holds the pairs of `a` and those of `b`, and no other. -/
def IsUnion (m a b : Bindings) : Prop :=
  ∀ v n, m.get? v = some n ↔ a.get? v = some n ∨ b.get? v = some n

theorem IsUnion.symm (h : IsUnion m a b) : IsUnion m b a :=
  fun v n => (h v n).trans or_comm

theorem IsUnion.extends_left (h : IsUnion m a b) : m.Extends a :=
  fun v n hv => (h v n).2 (Or.inl hv)

theorem IsUnion.extends_right (h : IsUnion m a b) : m.Extends b :=
  fun v n hv => (h v n).2 (Or.inr hv)

theorem IsUnion.unique {m' : Bindings} (h : IsUnion m a b) (h' : IsUnion m' a b) : m = m' := by
  apply OrderedMap.ext_get?
  intro v
  apply Option.ext
  intro n
  rw [h v n, h' v n]

theorem IsUnion.contains_iff (h : IsUnion m a b) {v : Variable} :
    m.contains v = true ↔ a.contains v = true ∨ b.contains v = true := by
  simp only [OrderedMap.contains_iff, ← exists_or]
  exact exists_congr (h v)

theorem IsUnion.extends_of (h : IsUnion m a b) (ha : c.Extends a) (hb : c.Extends b) :
    c.Extends m := by
  intro v n hv
  rcases (h v n).1 hv with hv | hv
  · exact ha v n hv
  · exact hb v n hv

/-- No variable is bound to one node by one side and to another by the other. -/
def Agrees (a b : Bindings) : Prop :=
  ∀ v n k, a.get? v = some n → b.get? v = some k → n = k

theorem Extends.agrees (ha : c.Extends a) (hb : c.Extends b) : a.Agrees b :=
  fun v n k hn hk => Option.some_inj.1 ((ha v n hn).symm.trans (hb v k hk))

theorem IsUnion.agrees (h : IsUnion m a b) : a.Agrees b :=
  h.extends_left.agrees h.extends_right

private theorem extend?_cons {v : Variable} {n : Node} {rest : List (Variable × Node)} :
    extend? b ((v, n) :: rest) = some m ↔
      (b.get? v = some n ∧ extend? b rest = some m) ∨
      (b.get? v = none ∧ extend? (b.insert v n) rest = some m) := by
  rw [extend?]
  cases hv : b.get? v with
  | none => simp
  | some k =>
      by_cases hk : k = n <;> simp [hk]

private theorem get?_of_extend? {l : List (Variable × Node)} (h : extend? b l = some m) :
    ∀ v n, m.get? v = some n ↔ b.get? v = some n ∨ (v, n) ∈ l := by
  induction l generalizing b with
  | nil =>
      cases h
      simp
  | cons e rest ih =>
      intro v n
      rcases extend?_cons.1 h with ⟨hv, h⟩ | ⟨hv, h⟩
      · rw [ih h v n]
        constructor
        · rintro (hb | hr)
          · exact Or.inl hb
          · exact Or.inr (List.mem_cons_of_mem _ hr)
        · rintro (hb | hr)
          · exact Or.inl hb
          · rcases List.mem_cons.1 hr with rfl | hr
            · exact Or.inl hv
            · exact Or.inr hr
      · rw [ih h v n, OrderedMap.get?_insert]
        by_cases heq : e.1 = v
        · subst heq
          rw [if_pos rfl, hv, Option.some_inj, List.mem_cons, Prod.ext_iff]
          simp [eq_comm]
        · have hne : (v, n) ≠ e := fun h => heq (congrArg Prod.fst h).symm
          rw [if_neg heq, List.mem_cons]
          simp [hne]

private theorem exists_extend? {l : List (Variable × Node)}
    (hb : ∀ e ∈ l, ∀ n, b.get? e.1 = some n → n = e.2)
    (hl : ∀ e ∈ l, ∀ f ∈ l, e.1 = f.1 → e.2 = f.2) : ∃ m, extend? b l = some m := by
  induction l generalizing b with
  | nil => exact ⟨b, rfl⟩
  | cons e rest ih =>
      have hrest : ∀ f ∈ rest, ∀ g ∈ rest, f.1 = g.1 → f.2 = g.2 := fun f hf g hg =>
        hl f (List.mem_cons_of_mem _ hf) g (List.mem_cons_of_mem _ hg)
      cases hv : b.get? e.1 with
      | none =>
          have hinsert : ∀ f ∈ rest, ∀ n, (b.insert e.1 e.2).get? f.1 = some n → n = f.2 := by
            intro f hf n hn
            rw [OrderedMap.get?_insert] at hn
            by_cases heq : e.1 = f.1
            · rw [if_pos heq, Option.some_inj] at hn
              exact hn.symm.trans (hl e List.mem_cons_self f (List.mem_cons_of_mem _ hf) heq)
            · rw [if_neg heq] at hn
              exact hb f (List.mem_cons_of_mem _ hf) n hn
          obtain ⟨m, hm⟩ := ih hinsert hrest
          exact ⟨m, extend?_cons.2 (Or.inr ⟨hv, hm⟩)⟩
      | some k =>
          have hk : k = e.2 := hb e List.mem_cons_self k hv
          obtain ⟨m, hm⟩ := ih (fun f hf => hb f (List.mem_cons_of_mem _ hf)) hrest
          exact ⟨m, extend?_cons.2 (Or.inl ⟨hk ▸ hv, hm⟩)⟩

private theorem isUnion_of_extend? (h : extend? a b.toList = some m) : IsUnion m a b := by
  intro v n
  rw [get?_of_extend? h v n, OrderedMap.mem_toList_iff]

private theorem exists_extend?_of_agrees (h : a.Agrees b) : ∃ m, extend? a b.toList = some m := by
  have hget : ∀ e ∈ b.toList, b.get? e.1 = some e.2 := fun e he => OrderedMap.mem_toList_iff.1 he
  refine exists_extend? (fun e he n hn => h e.1 n e.2 hn (hget e he)) fun e he f hf heq => ?_
  have he := hget e he
  rw [heq, hget f hf, Option.some_inj] at he
  exact he.symm

theorem extend?_toList_eq_some_iff : a.extend? b.toList = some m ↔ IsUnion m a b := by
  constructor
  · exact isUnion_of_extend?
  · intro h
    obtain ⟨m', hm'⟩ := exists_extend?_of_agrees h.agrees
    rw [hm', (isUnion_of_extend? hm').unique h]

theorem extend?_toList_comm (a b : Bindings) : a.extend? b.toList = b.extend? a.toList := by
  apply Option.ext
  intro m
  rw [extend?_toList_eq_some_iff, extend?_toList_eq_some_iff]
  exact ⟨IsUnion.symm, IsUnion.symm⟩

theorem merge?_eq_extend?_toList (a b : Bindings) : a.merge? b = a.extend? b.toList := by
  unfold merge?
  split
  · rfl
  · exact extend?_toList_comm b a

theorem merge?_eq_some_iff_isUnion : a.merge? b = some m ↔ IsUnion m a b := by
  rw [merge?_eq_extend?_toList, extend?_toList_eq_some_iff]

theorem isUnion_of_merge? (h : a.merge? b = some m) : IsUnion m a b :=
  merge?_eq_some_iff_isUnion.1 h

theorem exists_merge?_iff_agrees : (∃ m, a.merge? b = some m) ↔ a.Agrees b := by
  constructor
  · rintro ⟨m, hm⟩
    exact (isUnion_of_merge? hm).agrees
  · intro h
    rw [merge?_eq_extend?_toList]
    exact exists_extend?_of_agrees h

theorem exists_merge?_of_extends (ha : c.Extends a) (hb : c.Extends b) :
    ∃ m, a.merge? b = some m :=
  exists_merge?_iff_agrees.2 (ha.agrees hb)

/-! ## Laws of merging -/

theorem merge?_comm (a b : Bindings) : a.merge? b = b.merge? a := by
  rw [merge?_eq_extend?_toList, merge?_eq_extend?_toList, extend?_toList_comm]

theorem merge?_empty (a : Bindings) : a.merge? ∅ = some a :=
  merge?_eq_some_iff_isUnion.2 fun _ _ => (or_iff_left nofun).symm

theorem merge?_self (a : Bindings) : a.merge? a = some a :=
  merge?_eq_some_iff_isUnion.2 fun _ _ => or_self_iff.symm

theorem IsUnion.assoc {ab : Bindings} (hab : IsUnion ab a b) (hm : IsUnion m ab c) :
    ∃ bc, IsUnion bc b c ∧ IsUnion m a bc := by
  have hb : m.Extends b := hm.extends_left.trans hab.extends_right
  obtain ⟨bc, hbc⟩ := exists_merge?_of_extends hb hm.extends_right
  have hbc := isUnion_of_merge? hbc
  refine ⟨bc, hbc, fun v n => ?_⟩
  rw [hm v n, hab v n, hbc v n, or_assoc]

theorem merge?_assoc (a b c : Bindings) :
    ((a.merge? b).bind fun m => m.merge? c) = (b.merge? c).bind fun m => a.merge? m := by
  apply Option.ext
  intro m
  simp only [Option.bind_eq_some_iff, merge?_eq_some_iff_isUnion]
  constructor
  · rintro ⟨ab, hab, hm⟩
    exact hab.assoc hm
  · rintro ⟨bc, hbc, hm⟩
    obtain ⟨ba, hba, hm'⟩ := hbc.symm.assoc hm.symm
    exact ⟨ba, hba.symm, hm'.symm⟩

theorem merge?_right_comm (a b c : Bindings) :
    ((a.merge? b).bind fun m => m.merge? c) = (a.merge? c).bind fun m => m.merge? b := by
  rw [merge?_assoc, merge?_comm b c, merge?_assoc]

/-! ## Join keys -/

theorem joinKey_cons_eq_ok_iff {v : Variable} {rest : List Variable} {key : List Node} :
    b.joinKey (v :: rest) = .ok key ↔
      ∃ n ks, b.get? v = some n ∧ b.joinKey rest = .ok ks ∧ key = n :: ks := by
  unfold joinKey
  rw [List.mapM_cons, Result.bind_eq_ok_iff]
  simp only [Result.bind_eq_ok_iff, Result.pure_eq_ok, Except.ok.injEq]
  cases hv : b.get? v with
  | none => simp
  | some n => simp [eq_comm]

theorem joinKey_eq_ok_iff {vars : List Variable} {key : List Node} :
    b.joinKey vars = .ok key ↔ vars.map b.get? = key.map some := by
  induction vars generalizing key with
  | nil =>
      cases key with
      | nil => exact iff_of_true rfl rfl
      | cons n ks => exact iff_of_false nofun nofun
  | cons v rest ih =>
      rw [joinKey_cons_eq_ok_iff, List.map_cons]
      cases key with
      | nil => simp
      | cons k ks => simp [ih, eq_comm]

theorem exists_joinKey_iff {vars : List Variable} :
    (∃ key, b.joinKey vars = .ok key) ↔ ∀ v ∈ vars, b.contains v = true := by
  simp only [joinKey_eq_ok_iff]
  induction vars with
  | nil => simp
  | cons v rest ih =>
      rw [List.forall_mem_cons, ← ih, OrderedMap.contains_iff]
      constructor
      · rintro ⟨_ | ⟨n, key⟩, h⟩
        · cases h
        · rw [List.map_cons, List.map_cons, List.cons.injEq] at h
          exact ⟨⟨n, h.1⟩, key, h.2⟩
      · rintro ⟨⟨n, hn⟩, key, h⟩
        exact ⟨n :: key, by rw [List.map_cons, List.map_cons, hn, h]⟩

theorem Extends.joinKey_eq (h : a.Extends b) {vars : List Variable} {key : List Node}
    (hb : b.joinKey vars = .ok key) : a.joinKey vars = .ok key := by
  rw [joinKey_eq_ok_iff] at hb ⊢
  rw [← hb]
  apply List.map_congr_left
  intro v hv
  have hmem : b.get? v ∈ key.map some := hb ▸ List.mem_map_of_mem hv
  obtain ⟨n, _, hn⟩ := List.mem_map.1 hmem
  rw [← hn]
  exact h v n hn.symm

/-- With keys that cover the shared variables, equal keys are no conflict and no conflict is equal
keys. -/
theorem joinKey_eq_iff_agrees {vars : List Variable} {key key' : List Node}
    (hshared : ∀ v, a.contains v = true → b.contains v = true → v ∈ vars)
    (ha : a.joinKey vars = .ok key) (hb : b.joinKey vars = .ok key') :
    key = key' ↔ a.Agrees b := by
  have hboth : ∀ v ∈ vars, a.contains v = true ∧ b.contains v = true := fun v hv =>
    ⟨exists_joinKey_iff.1 ⟨key, ha⟩ v hv, exists_joinKey_iff.1 ⟨key', hb⟩ v hv⟩
  rw [joinKey_eq_ok_iff] at ha hb
  have hkeys : key = key' ↔ ∀ v ∈ vars, a.get? v = b.get? v := by
    rw [← List.map_inj_left, ha, hb, List.map_inj_right fun _ _ => Option.some.inj]
  rw [hkeys]
  constructor
  · intro h v n k hn hk
    have hv : v ∈ vars := hshared v (contains_of_get? hn) (contains_of_get? hk)
    rw [← h v hv, hn, Option.some_inj] at hk
    exact hk
  · intro h v hv
    obtain ⟨hav, hbv⟩ := hboth v hv
    obtain ⟨n, hn⟩ := OrderedMap.contains_iff.1 hav
    obtain ⟨k, hk⟩ := OrderedMap.contains_iff.1 hbv
    rw [hn, hk, h v n k hn hk]

end Entail.Bindings
