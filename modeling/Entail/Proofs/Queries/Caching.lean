import Entail.Proofs.Queries.Cache
import Entail.Queries.Calls
/-!
# Caching

A cache is a map of bounded size. Whatever it is asked, what it held and what is put in is afterwards
either still there or in the hands of the caller; so a look-up finds the value stored last, as long as
nobody has been given the entry. A look-up itself moves one entry by one place at most.
-/

namespace Entail.ResultCache

variable {κ ν : Type} {c : ResultCache κ ν} {k x : κ} {v : ν} {call : CacheCall κ ν}
  {calls : List (CacheCall κ ν)} {l : List (CacheEntry κ ν)}

theorem map_fst_pairs : c.pairs.map Prod.fst = c.keys :=
  List.map_map

theorem length_pairs : c.pairs.length = c.size :=
  List.length_map _

private theorem pairs_insert_perm (c : ResultCache κ ν) (k : κ) (v : ν) :
    (c.pairs ++ [(k, v)]).Perm ((c.insert k v).2.pairs ++ (c.insert k v).1.toList) := by
  rw [insert]
  split
  · exact .refl _
  · split
    · rw [Option.toList_none, List.append_nil, pairs, pairs, List.map_append]
      exact .refl _
    · have hne : c.entries ≠ [] := by
        intro hnil
        simp_all
      have hlast : c.pairs = (c.entries.dropLast.map fun e => (e.key, e.value)) ++
          (c.entries.getLast?.map fun e => (e.key, e.value)).toList := by
        rw [List.getLast?_eq_some_getLast hne]
        calc c.pairs
            = (c.entries.dropLast ++ [c.entries.getLast hne]).map fun e => (e.key, e.value) := by
              rw [List.dropLast_concat_getLast, pairs]
          _ = _ := List.map_append
      rw [hlast, pairs, List.map_append, List.append_assoc, List.append_assoc]
      exact List.perm_append_comm.append_left _

variable [DecidableEq κ]

/-! ## One entry for each key -/

theorem find?_key_eq_some_iff (h : (l.map CacheEntry.key).Nodup) {e : CacheEntry κ ν} :
    (l.find? fun e => e.key = k) = some e ↔ e ∈ l ∧ e.key = k := by
  induction l with
  | nil => simp
  | cons d rest ih =>
      obtain ⟨hd, hrest⟩ := List.nodup_cons.1 h
      by_cases hk : d.key = k
      · have hother : e ∈ rest → e.key ≠ k := by
          rintro he rfl
          exact hd (hk ▸ List.mem_map_of_mem he)
        rw [List.find?_cons_of_pos (by simpa using hk), Option.some_inj, List.mem_cons]
        constructor
        · rintro rfl
          exact ⟨Or.inl rfl, hk⟩
        · rintro ⟨rfl | he, hek⟩
          · rfl
          · exact absurd hek (hother he)
      · rw [List.find?_cons_of_neg (by simpa using hk), ih hrest, List.mem_cons]
        constructor
        · rintro ⟨he, hek⟩
          exact ⟨Or.inr he, hek⟩
        · rintro ⟨rfl | he, hek⟩
          · exact absurd hek hk
          · exact ⟨he, hek⟩

theorem get?_eq_some_iff (h : c.keys.Nodup) : c.get? k = some v ↔ (k, v) ∈ c.pairs := by
  simp only [get?, Option.map_eq_some_iff, find?_key_eq_some_iff h, pairs, List.mem_map,
    Prod.mk.injEq]
  constructor
  · rintro ⟨e, ⟨he, hk⟩, hv⟩
    exact ⟨e, he, hk, hv⟩
  · rintro ⟨e, he, hk, hv⟩
    exact ⟨e, ⟨he, hk⟩, hv⟩

theorem get?_eq_none_of_not_mem (h : k ∉ c.keys) : c.get? k = none := by
  rw [get?, Option.map_eq_none_iff, List.find?_eq_none]
  intro e he hk
  exact h (List.mem_map.2 ⟨e, he, of_decide_eq_true hk⟩)

/-! ## Nothing is lost -/

private theorem pairs_count (k : κ) (l : List (CacheEntry κ ν)) :
    ((count k l).map fun e => (e.key, e.value)) = l.map fun e => (e.key, e.value) := by
  induction l with
  | nil => rfl
  | cons e rest ih =>
      rw [count]
      split
      · rfl
      · exact congrArg ((e.key, e.value) :: ·) ih

private theorem pairs_probe_perm (c : ResultCache κ ν) (k : κ) :
    (c.probe k).2.pairs.Perm c.pairs :=
  calc (c.probe k).2.pairs.Perm
          ((count k c.entries).map fun e : CacheEntry κ ν => (e.key, e.value)) :=
        (promote_perm k _).map _
    _ = c.pairs := pairs_count k c.entries

private theorem pairs_modify (h : c.keys.Nodup) (k : κ) (f : ν → ν) :
    (c.modify k f).pairs = c.pairs.map (CacheCall.write k f).rewrite := by
  obtain ⟨capacity, l⟩ := c
  change (modifyFirst k f l).map _ = (l.map _).map _
  induction l with
  | nil => rfl
  | cons e rest ih =>
      obtain ⟨he, hrest⟩ := List.nodup_cons.1 h
      rw [modifyFirst, List.map_cons, List.map_cons]
      by_cases hk : e.key = k
      · have hsame : ∀ p ∈ rest.map fun e => (e.key, e.value),
            (CacheCall.write k f).rewrite p = p := by
          intro p hp
          obtain ⟨d, hd, rfl⟩ := List.mem_map.1 hp
          exact if_neg fun hdk => he (List.mem_map.2 ⟨d, hd, hdk.trans hk.symm⟩)
        rw [if_pos hk, List.map_cons, List.map_congr_left hsame, List.map_id', CacheCall.rewrite,
          if_pos hk]
      · rw [if_neg hk, CacheCall.rewrite, if_neg hk, List.map_cons, ih hrest]

private theorem perm_eraseP {α : Type} (p : α → Bool) (l : List α) :
    l.Perm (l.eraseP p ++ (l.find? p).toList) := by
  induction l with
  | nil => exact .nil
  | cons a rest ih =>
      cases ha : p a with
      | true =>
          rw [List.eraseP_cons_of_pos ha, List.find?_cons_of_pos ha]
          exact (List.perm_append_singleton a rest).symm
      | false =>
          rw [List.eraseP_cons_of_neg (by simp [ha]), List.find?_cons_of_neg (by simp [ha])]
          exact ih.cons a

private theorem pairs_remove_perm (c : ResultCache κ ν) (k : κ) :
    c.pairs.Perm ((c.remove k).2.pairs ++ ((c.remove k).1.map fun v => (k, v)).toList) := by
  have hfound : ((c.remove k).1.map fun v => (k, v)).toList =
      (c.entries.find? fun e => e.key = k).toList.map fun e => (e.key, e.value) := by
    change ((Option.map _ _).map _).toList = _
    cases hfind : c.entries.find? fun e => e.key = k with
    | none => rfl
    | some e =>
        have hk := List.find?_some hfind
        rw [← of_decide_eq_true hk]
        rfl
  rw [hfound, pairs, pairs, ← List.map_append]
  exact (perm_eraseP _ _).map _

/-- What the cache held, as the call changes it, and what the call puts in is afterwards what the cache
holds and what the caller is handed. -/
def Balances (c : ResultCache κ ν) (call : CacheCall κ ν) : Prop :=
  (c.pairs.map call.rewrite ++ call.given).Perm
    ((c.carryOut call).2.pairs ++ (c.carryOut call).1.handed)

theorem balances (h : c.keys.Nodup) (call : CacheCall κ ν) : c.Balances call := by
  rw [Balances]
  cases call with
  | probe k =>
      have hsame : c.pairs.map (CacheCall.probe k).rewrite = c.pairs := List.map_id' _
      rw [hsame]
      exact ((pairs_probe_perm c k).symm).append_right []
  | write k f =>
      have hkeys : (c.probe k).2.keys.Nodup := by
        rw [← map_fst_pairs] at h ⊢
        exact ((pairs_probe_perm c k).map _).nodup_iff.2 h
      have hprobed := (pairs_probe_perm c k).symm.map (CacheCall.write k f).rewrite
      have hwritten := pairs_modify hkeys k f
      rw [← hwritten] at hprobed
      exact hprobed.append_right []
  | insert k v =>
      have hsame : c.pairs.map (CacheCall.insert k v).rewrite = c.pairs := List.map_id' _
      rw [hsame]
      exact pairs_insert_perm c k v
  | remove k =>
      have hsame : c.pairs.map (CacheCall.remove (ν := ν) k).rewrite = c.pairs := List.map_id' _
      have hnone : (CacheCall.remove (ν := ν) k).given = [] := rfl
      rw [hsame, hnone, List.append_nil]
      exact pairs_remove_perm c k

/-! ## Calls -/

private theorem fst_rewrite (call : CacheCall κ ν) (e : κ × ν) : (call.rewrite e).1 = e.1 := by
  cases call with
  | write k f =>
      rw [CacheCall.rewrite]
      split <;> rfl
  | _ => rfl

theorem nodup_carryOut (h : c.keys.Nodup) (hallows : c.Allows call) :
    ((c.carryOut call).2.keys ++ (c.carryOut call).1.handed.map Prod.fst).Nodup := by
  have hgiven : (c.keys ++ call.given.map Prod.fst).Nodup := by
    cases call with
    | insert k v =>
        have hdistinct : ∀ a ∈ c.keys, ∀ b ∈ [k], a ≠ b := by
          rintro a ha b hb rfl
          rw [List.mem_singleton.1 hb] at ha
          exact hallows ha
        exact List.nodup_append.2 ⟨h, List.pairwise_singleton _ k, hdistinct⟩
    | _ => simpa [CacheCall.given] using h
  have hbefore : (c.pairs.map call.rewrite ++ call.given).map Prod.fst =
      c.keys ++ call.given.map Prod.fst := by
    have hkept : c.pairs.map (Prod.fst ∘ call.rewrite) = c.pairs.map Prod.fst :=
      List.map_congr_left fun e _ => fst_rewrite call e
    rw [List.map_append, List.map_map, ← map_fst_pairs, hkept]
  rw [← hbefore] at hgiven
  rw [← map_fst_pairs, ← List.map_append]
  exact ((balances h call).map Prod.fst).nodup_iff.1 hgiven

theorem nodup_keys_carryOut (h : c.keys.Nodup) (hallows : c.Allows call) :
    (c.carryOut call).2.keys.Nodup :=
  (List.nodup_append.1 (nodup_carryOut h hallows)).1

private theorem mem_stored (h : c.keys.Nodup) (hallows : c.Allows call) :
    (x, v) ∈ c.pairs.map call.rewrite ++ call.given ↔
      (c.carryOut call).1.stored x (c.get? x) = some v := by
  cases call with
  | write k f =>
      simp only [CacheCall.given, List.append_nil, List.mem_map, Prod.exists, carryOut,
        CacheEvent.stored, ← get?_eq_some_iff h, CacheCall.rewrite]
      by_cases hk : k = x
      · simp only [hk, if_true, Option.map_eq_some_iff]
        grind
      · grind
  | insert k w =>
      have hsame : c.pairs.map (CacheCall.insert k w).rewrite = c.pairs := List.map_id' _
      have hfresh : c.get? k = none := get?_eq_none_of_not_mem hallows
      rw [hsame, List.mem_append, ← get?_eq_some_iff h, CacheCall.given, List.mem_singleton,
        Prod.mk.injEq, carryOut, CacheEvent.stored]
      by_cases hk : k = x
      · subst hk
        simp [hfresh, eq_comm]
      · simp [hk, Ne.symm hk]
  | probe k =>
      have hsame : c.pairs.map (CacheCall.probe k).rewrite = c.pairs := List.map_id' _
      rw [hsame]
      exact (List.append_nil c.pairs).symm ▸ (get?_eq_some_iff h).symm
  | remove k =>
      have hsame : c.pairs.map (CacheCall.remove (ν := ν) k).rewrite = c.pairs := List.map_id' _
      rw [hsame]
      exact (List.append_nil c.pairs).symm ▸ (get?_eq_some_iff h).symm

theorem get?_carryOut (h : c.keys.Nodup) (hallows : c.Allows call) :
    (c.carryOut call).2.get? x = (c.carryOut call).1.update x (c.get? x) := by
  obtain ⟨hafter, -, hdisjoint⟩ := List.nodup_append.1 (nodup_carryOut h hallows)
  rw [CacheEvent.update]
  split
  · rename_i hhanded
    exact get?_eq_none_of_not_mem fun hx => hdisjoint x hx x hhanded rfl
  · rename_i hhanded
    apply Option.ext
    intro w
    have hnot : (x, w) ∉ (c.carryOut call).1.handed := fun hw =>
      hhanded (List.mem_map_of_mem hw)
    rw [get?_eq_some_iff hafter, ← mem_stored h hallows, (balances h call).mem_iff, List.mem_append,
      or_iff_left hnot]

/-! ## Runs -/

/-- The cache has room for `capacity` entries, and one entry for each of its keys. -/
structure IsBounded (c : ResultCache κ ν) (capacity : Nat) : Prop where
  capacity_eq : c.capacity = capacity
  size_le : c.size ≤ capacity
  nodup_keys : c.keys.Nodup

omit [DecidableEq κ] in
theorem isBounded_empty (capacity : Nat) : (empty capacity : ResultCache κ ν).IsBounded capacity where
  capacity_eq := rfl
  size_le := Nat.zero_le capacity
  nodup_keys := List.nodup_nil

omit [DecidableEq κ] in
private theorem size_insert_le {capacity : Nat} (h : c.IsBounded capacity) (k : κ) (v : ν) :
    (c.insert k v).2.capacity = capacity ∧ (c.insert k v).2.size ≤ capacity := by
  have hsize := h.size_le
  have hcapacity := h.capacity_eq
  unfold size at hsize
  rw [insert]
  split
  · exact ⟨hcapacity, hsize⟩
  · split
    · refine ⟨hcapacity, ?_⟩
      rw [size, List.length_append, List.length_singleton]
      omega
    · refine ⟨hcapacity, ?_⟩
      rw [size, List.length_append, List.length_dropLast, List.length_singleton]
      omega

private theorem size_carryOut_le (h : c.keys.Nodup) (hgiven : call.given = []) :
    (c.carryOut call).2.size ≤ c.size := by
  have hlength := (balances h call).length_eq
  rw [hgiven, List.append_nil, List.length_map, List.length_append, length_pairs, length_pairs]
    at hlength
  omega

theorem IsBounded.carryOut {capacity : Nat} (h : c.IsBounded capacity) (hallows : c.Allows call) :
    (c.carryOut call).2.IsBounded capacity := by
  have hnodup := nodup_keys_carryOut h.nodup_keys hallows
  have hother : call.given = [] → (c.carryOut call).2.size ≤ capacity := fun hgiven =>
    Nat.le_trans (size_carryOut_le h.nodup_keys hgiven) h.size_le
  cases call with
  | probe k => exact ⟨h.capacity_eq, hother rfl, hnodup⟩
  | write k f => exact ⟨h.capacity_eq, hother rfl, hnodup⟩
  | insert k v => exact ⟨(size_insert_le h k v).1, (size_insert_le h k v).2, hnodup⟩
  | remove k => exact ⟨h.capacity_eq, hother rfl, hnodup⟩

theorem IsBounded.run {capacity : Nat} (h : c.IsBounded capacity) (hadmits : c.Admits calls) :
    (c.run calls).IsBounded capacity := by
  induction calls generalizing c with
  | nil => exact h
  | cons call rest ih => exact ih (h.carryOut hadmits.1) hadmits.2

theorem get?_run (h : c.keys.Nodup) (hadmits : c.Admits calls) :
    (c.run calls).get? x = (c.events calls).foldl (CacheEvent.update x) (c.get? x) := by
  induction calls generalizing c with
  | nil => rfl
  | cons call rest ih =>
      obtain ⟨hallows, hrest⟩ := hadmits
      have hnodup := nodup_keys_carryOut h hallows
      rw [events, List.foldl_cons, ← get?_carryOut h hallows]
      exact ih hnodup hrest

/-! ## Look-ups -/

/-- The entry of `k` stands one place further forward than before, in front of one with fewer hits. -/
def Advances (k : κ) (before : List (κ × ν)) (after : List (CacheEntry κ ν)) : Prop :=
  ∃ front e f back, after = front ++ f :: e :: back ∧ f.key = k ∧ e.hits < f.hits ∧
    before = (front ++ e :: f :: back).map fun e => (e.key, e.value)

/-- A look-up leaves the keys and their values as they are, and moves the entry that it finds by at
most one place. -/
structure IsUndisturbed (c : ResultCache κ ν) (k : κ) : Prop where
  get?_eq : ∀ x, (c.probe k).2.get? x = c.get? x
  keys_perm : (c.probe k).2.keys.Perm c.keys
  pairs_eq : (c.probe k).2.pairs = c.pairs ∨ Advances k c.pairs (c.probe k).2.entries

theorem isUndisturbed (h : c.keys.Nodup) (k : κ) : c.IsUndisturbed k where
  get?_eq x := by
    have hallows : c.Allows (.probe k) := trivial
    exact get?_carryOut h hallows
  keys_perm := by
    rw [← map_fst_pairs, ← map_fst_pairs]
    exact (pairs_probe_perm c k).map _
  pairs_eq := by
    obtain heq | ⟨front, e, f, back, hcount, hpromote, hk, hlt⟩ := promote_cases k (count k c.entries)
    · left
      rw [pairs, probe, heq]
      exact pairs_count k c.entries
    · right
      refine ⟨front, e, f, back, hpromote, hk, hlt, ?_⟩
      rw [← hcount]
      exact (pairs_count k c.entries).symm

/-- The cache is a map of at most `capacity` entries, in which each key is found with the value stored
last for it in the course of the events. -/
structure Recalls (c : ResultCache κ ν) (capacity : Nat) (events : List (CacheEvent κ ν)) : Prop
    extends c.IsBounded capacity where
  probe_eq : ∀ k, (c.probe k).1 = CacheEvent.latest? events k

/-- After any calls that insert no key for which there is an entry, the cache is a map of bounded size
with the values stored last; whatever it is asked next, all that it held is still there or handed out;
and a look-up disturbs nothing. -/
theorem cache_recalls_latest (capacity : Nat) (calls : List (CacheCall κ ν))
    (hadmits : (empty capacity).Admits calls) :
    let c := (empty capacity).run calls
    c.Recalls capacity ((empty capacity).events calls) ∧ (∀ call, c.Balances call) ∧
      ∀ k, c.IsUndisturbed k := by
  intro c
  have hbounded : c.IsBounded capacity := (isBounded_empty capacity).run hadmits
  have hfinds : ∀ k, (c.probe k).1 = CacheEvent.latest? ((empty capacity).events calls) k :=
    fun k => get?_run List.nodup_nil hadmits
  exact ⟨⟨hbounded, hfinds⟩, balances hbounded.nodup_keys, isUndisturbed hbounded.nodup_keys⟩

/-- Key 1 overtakes key 0, which is handed back for key 2; the value of key 1 was changed meanwhile. -/
theorem cache_recalls_overtaken :
    let calls : List (CacheCall Nat Nat) :=
      [.insert 0 10, .insert 1 11, .write 1 (· + 5), .probe 3, .insert 2 12]
    let c := (empty 2).run calls
    (empty 2).Admits calls ∧ c.keys = [1, 2] ∧ (c.probe 0).1 = none ∧ (c.probe 1).1 = some 16 ∧
      c.Recalls 2 ((empty 2).events calls) := by
  intro calls c
  have hadmits : (empty 2).Admits calls := by decide
  have hrecalls := (cache_recalls_latest 2 calls hadmits).1
  exact ⟨hadmits, by decide, (hrecalls.probe_eq 0).trans (by decide),
    (hrecalls.probe_eq 1).trans (by decide), hrecalls⟩

end Entail.ResultCache
