import Entail.Proofs.Queries.Caching
import Mathlib.Data.List.Induction
import Mathlib.Data.List.Nodup
/-!
# Ranking

A full cache gives up its last entry. The ranking only says which entry came first and which has
overtaken which: an entry stands in front of another because it was there before, or because it passed
it when it had more hits. Its hits may be used up afterwards, by look-ups that pass over it.
-/

namespace Entail.ResultCache

variable {κ ν : Type} {c : ResultCache κ ν} {f g k x y z : κ} {v : ν} {l : List κ}
  {es es' : List (CacheEntry κ ν)} {call : CacheCall κ ν} {calls after : List (CacheCall κ ν)}

/-! ## Order of the keys -/

/-- `f` stands in front of `g`. -/
def Ahead (c : ResultCache κ ν) (f g : κ) : Prop :=
  [f, g].Sublist c.keys

private theorem pair_cons_iff : [x, y].Sublist (z :: l) ↔ z = x ∧ y ∈ l ∨ [x, y].Sublist l := by
  rw [List.cons_sublist_cons', List.singleton_sublist, eq_comm, or_comm]

private theorem pair_append_iff {l' : List κ} :
    [x, y].Sublist (l ++ l') ↔ [x, y].Sublist l ∨ x ∈ l ∧ y ∈ l' ∨ [x, y].Sublist l' := by
  induction l with
  | nil => simp
  | cons a rest ih =>
      rw [List.cons_append, pair_cons_iff, pair_cons_iff, ih, List.mem_append, List.mem_cons]
      grind

private theorem pair_swap {front back : List κ}
    (h : [f, g].Sublist (front ++ x :: y :: back)) :
    [f, g].Sublist (front ++ y :: x :: back) ∨ f = x ∧ g = y := by
  simp only [pair_append_iff, pair_cons_iff, List.mem_cons] at h ⊢
  grind

private theorem pair_trans (hl : l.Nodup) (h : [x, y].Sublist l) (h' : [y, z].Sublist l) :
    [x, z].Sublist l := by
  induction l with
  | nil => exact absurd h (by simp)
  | cons a rest ih =>
      obtain ⟨ha, hrest⟩ := List.nodup_cons.1 hl
      rw [pair_cons_iff] at h h' ⊢
      obtain ⟨rfl, hy⟩ | h := h
      · obtain ⟨rfl, _⟩ | h' := h'
        · exact absurd hy ha
        · exact Or.inl ⟨rfl, h'.subset (by simp)⟩
      · obtain ⟨rfl, _⟩ | h' := h'
        · exact absurd (h.subset (by simp)) ha
        · exact Or.inr (ih hrest h h')

private theorem pair_total (hx : x ∈ l) (hy : y ∈ l) (hne : x ≠ y) :
    [x, y].Sublist l ∨ [y, x].Sublist l := by
  induction l with
  | nil => cases hx
  | cons a rest ih =>
      rw [pair_cons_iff, pair_cons_iff]
      obtain rfl | hx' := List.mem_cons.1 hx
      · obtain rfl | hy' := List.mem_cons.1 hy
        · exact absurd rfl hne
        · exact Or.inl (Or.inl ⟨rfl, hy'⟩)
      · obtain rfl | hy' := List.mem_cons.1 hy
        · exact Or.inr (Or.inl ⟨rfl, hx'⟩)
        · exact (ih hx' hy').imp Or.inr Or.inr

private theorem pair_dropLast (hl : l.Nodup) (h : [x, y].Sublist l) (hy : y ∈ l.dropLast) :
    [x, y].Sublist l.dropLast := by
  have hne : l ≠ [] := List.ne_nil_of_mem (h.subset List.mem_cons_self)
  rw [← List.dropLast_concat_getLast hne] at hl h
  obtain hpair | ⟨-, hlast⟩ | hpair := pair_append_iff.1 h
  · exact hpair
  · exact absurd rfl ((List.nodup_append.1 hl).2.2 y hy y hlast)
  · exact absurd hpair.length_le (by simp)

theorem Ahead.mem_left (h : c.Ahead f g) : f ∈ c.keys :=
  h.subset (by simp)

theorem Ahead.mem_right (h : c.Ahead f g) : g ∈ c.keys :=
  h.subset (by simp)

theorem Ahead.trans (hc : c.keys.Nodup) (h : c.Ahead x y) (h' : c.Ahead y z) : c.Ahead x z :=
  pair_trans hc h h'

theorem Ahead.irrefl (hc : c.keys.Nodup) : ¬ c.Ahead x x :=
  List.nodup_iff_sublist.1 hc x

theorem Ahead.asymm (hc : c.keys.Nodup) (h : c.Ahead x y) : ¬ c.Ahead y x :=
  fun h' => Ahead.irrefl hc (h.trans hc h')

variable [DecidableEq κ]

/-! ## Hits -/

/-- How many hits the first entry of `k` has; none if there is no entry. -/
def hitsIn (es : List (CacheEntry κ ν)) (k : κ) : Nat :=
  ((es.find? fun e => e.key = k).map CacheEntry.hits).getD 0

def hits (c : ResultCache κ ν) (k : κ) : Nat :=
  hitsIn c.entries k

private theorem hitsIn_cons {e : CacheEntry κ ν} :
    hitsIn (e :: es) x = if e.key = x then e.hits else hitsIn es x := by
  by_cases hx : e.key = x <;> simp [hitsIn, hx]

private theorem hitsIn_of_mem (hes : (es.map CacheEntry.key).Nodup) {e : CacheEntry κ ν}
    (he : e ∈ es) : hitsIn es e.key = e.hits := by
  rw [hitsIn, (find?_key_eq_some_iff hes).2 ⟨he, rfl⟩]
  rfl

private theorem hitsIn_perm (hes : (es.map CacheEntry.key).Nodup) (h : es.Perm es') :
    hitsIn es' x = hitsIn es x := by
  have hes' : (es'.map CacheEntry.key).Nodup := (h.map _).nodup_iff.1 hes
  have hfind : es'.find? (fun e => e.key = x) = es.find? fun e => e.key = x := by
    apply Option.ext
    intro e
    rw [find?_key_eq_some_iff hes, find?_key_eq_some_iff hes', h.mem_iff]
  rw [hitsIn, hitsIn, hfind]

private theorem keys_count (k : κ) (es : List (CacheEntry κ ν)) :
    (count k es).map CacheEntry.key = es.map CacheEntry.key := by
  induction es with
  | nil => rfl
  | cons e rest ih =>
      rw [count]
      split
      · rfl
      · exact congrArg (e.key :: ·) ih

private theorem hitsIn_count_found (hk : k ∈ es.map CacheEntry.key) :
    hitsIn (count k es) k = min (hitsIn es k + 1) maxHits := by
  induction es with
  | nil => cases hk
  | cons e rest ih =>
      rw [count]
      by_cases he : e.key = k
      · rw [if_pos he, hitsIn_cons, hitsIn_cons, if_pos he, if_pos he]
      · have hrest : k ∈ rest.map CacheEntry.key := (List.mem_cons.1 hk).resolve_left (Ne.symm he)
        rw [if_neg he, hitsIn_cons, hitsIn_cons, if_neg he, if_neg he]
        exact ih hrest

private theorem hitsIn_count_passed (hes : (es.map CacheEntry.key).Nodup)
    (hx : x ∈ es.map CacheEntry.key)
    (hpassed : k ∉ es.map CacheEntry.key ∨ [x, k].Sublist (es.map CacheEntry.key)) :
    hitsIn (count k es) x = hitsIn es x - 1 := by
  induction es with
  | nil => cases hx
  | cons e rest ih =>
      obtain ⟨he, hrest⟩ := List.nodup_cons.1 hes
      rw [List.map_cons, pair_cons_iff, List.mem_cons] at hpassed
      have hk : e.key ≠ k := by
        rintro rfl
        obtain hnot | ⟨-, hmem⟩ | hpair := hpassed
        · exact hnot (Or.inl rfl)
        · exact he hmem
        · exact he (hpair.subset (by simp))
      rw [count, if_neg hk, hitsIn_cons, hitsIn_cons]
      by_cases hxe : e.key = x
      · rw [if_pos hxe, if_pos hxe]
      · have hx' : x ∈ rest.map CacheEntry.key := (List.mem_cons.1 hx).resolve_left (Ne.symm hxe)
        rw [if_neg hxe, if_neg hxe]
        refine ih hrest hx' ?_
        obtain hnot | ⟨hxe', -⟩ | hpair := hpassed
        · exact Or.inl fun hmem => hnot (Or.inr hmem)
        · exact absurd hxe' hxe
        · exact Or.inr hpair

private theorem hitsIn_count_behind (hes : (es.map CacheEntry.key).Nodup)
    (hbehind : [k, x].Sublist (es.map CacheEntry.key)) : hitsIn (count k es) x = hitsIn es x := by
  induction es with
  | nil => exact absurd hbehind (by simp)
  | cons e rest ih =>
      obtain ⟨he, hrest⟩ := List.nodup_cons.1 hes
      have hxe : e.key ≠ x := by
        rintro rfl
        rw [List.map_cons, pair_cons_iff] at hbehind
        obtain ⟨-, hmem⟩ | hpair := hbehind
        · exact he hmem
        · exact he (hpair.subset (by simp))
      rw [count]
      split
      · rw [hitsIn_cons, hitsIn_cons, if_neg hxe, if_neg hxe]
      · rename_i hk
        obtain ⟨hk', -⟩ | hpair := pair_cons_iff.1 hbehind
        · exact absurd hk' hk
        · rw [hitsIn_cons, hitsIn_cons, if_neg hxe, if_neg hxe, ih hrest hpair]

private theorem hitsIn_modifyFirst (k : κ) (f : ν → ν) (es : List (CacheEntry κ ν)) (x : κ) :
    hitsIn (modifyFirst k f es) x = hitsIn es x := by
  induction es with
  | nil => rfl
  | cons e rest ih =>
      rw [modifyFirst]
      split
      · rw [hitsIn_cons, hitsIn_cons]
      · rw [hitsIn_cons, hitsIn_cons, ih]

private theorem keys_modifyFirst (k : κ) (f : ν → ν) (es : List (CacheEntry κ ν)) :
    (modifyFirst k f es).map CacheEntry.key = es.map CacheEntry.key := by
  induction es with
  | nil => rfl
  | cons e rest ih =>
      rw [modifyFirst]
      split
      · rfl
      · exact congrArg (e.key :: ·) ih

/-! ## Look-ups -/

private theorem lookUp_eq (h : call.lookedUp? = some k) :
    (c.carryOut call).2.keys = (c.probe k).2.keys ∧
      ∀ x, (c.carryOut call).2.hits x = (c.probe k).2.hits x := by
  cases call with
  | probe k' =>
      cases h
      exact ⟨rfl, fun _ => rfl⟩
  | write k' f =>
      cases h
      exact ⟨keys_modifyFirst k f _, hitsIn_modifyFirst k f _⟩
  | insert k' v => cases h
  | remove k' => cases h

private theorem hits_lookUp (hc : c.keys.Nodup) (h : call.lookedUp? = some k) (hx : x ∈ c.keys) :
    x = k ∧ (c.carryOut call).2.hits x = min (c.hits x + 1) maxHits ∨
      (k ∉ c.keys ∨ c.Ahead x k) ∧ (c.carryOut call).2.hits x = c.hits x - 1 ∨
      c.Ahead k x ∧ (c.carryOut call).2.hits x = c.hits x := by
  have hcount : (c.carryOut call).2.hits x = hitsIn (count k c.entries) x := by
    have hnodup : ((count k c.entries).map CacheEntry.key).Nodup := by
      rw [keys_count]
      exact hc
    rw [(lookUp_eq h).2]
    exact hitsIn_perm hnodup (promote_perm k _).symm
  rw [hcount]
  by_cases hxk : x = k
  · subst hxk
    exact Or.inl ⟨rfl, hitsIn_count_found hx⟩
  · by_cases hk : k ∈ c.keys
    · obtain hpair | hpair := pair_total hx hk hxk
      · exact Or.inr (Or.inl ⟨Or.inr hpair, hitsIn_count_passed hc hx (Or.inr hpair)⟩)
      · exact Or.inr (Or.inr ⟨hpair, hitsIn_count_behind hc hpair⟩)
    · exact Or.inr (Or.inl ⟨Or.inl hk, hitsIn_count_passed hc hx (Or.inl hk)⟩)

private theorem keys_lookUp (hc : c.keys.Nodup) (h : call.lookedUp? = some k) :
    (c.carryOut call).2.keys = c.keys ∨ ∃ front x back, c.keys = front ++ x :: k :: back ∧
      (c.carryOut call).2.keys = front ++ k :: x :: back ∧
      (c.carryOut call).2.hits x < (c.carryOut call).2.hits k := by
  have hprobed : (c.probe k).2.keys.Nodup :=
    ((isUndisturbed hc k).keys_perm.nodup_iff).2 hc
  obtain ⟨hkeys, hhits⟩ := lookUp_eq (c := c) h
  rw [hkeys]
  obtain heq | ⟨front, e, f, back, hentries, rfl, hlt, hpairs⟩ := (isUndisturbed hc k).pairs_eq
  · left
    rw [← map_fst_pairs, heq, map_fst_pairs]
  · refine Or.inr ⟨front.map CacheEntry.key, e.key, back.map CacheEntry.key, ?_, ?_, ?_⟩
    · rw [← map_fst_pairs, hpairs, List.map_map, List.map_append]
      rfl
    · rw [keys, hentries, List.map_append]
      rfl
    · rw [hhits, hhits]
      have he : (c.probe f.key).2.hits e.key = e.hits := hitsIn_of_mem hprobed (by simp [hentries])
      have hf : (c.probe f.key).2.hits f.key = f.hits := hitsIn_of_mem hprobed (by simp [hentries])
      rw [he, hf]
      exact hlt

/-! ## Insertions and removals -/

omit [DecidableEq κ] in
private theorem keys_insert (c : ResultCache κ ν) (k : κ) (v : ν) :
    (c.insert k v).2.keys = c.keys ∨ (c.insert k v).2.keys = c.keys ++ [k] ∨
      (c.insert k v).2.keys = c.keys.dropLast ++ [k] := by
  rw [insert]
  split
  · exact Or.inl rfl
  · split
    · exact Or.inr (Or.inl List.map_append)
    · refine Or.inr (Or.inr ?_)
      rw [keys, keys, List.map_append, List.map_dropLast]
      rfl

private theorem keys_remove (c : ResultCache κ ν) (k : κ) :
    (c.remove k).2.keys = c.keys.erase k := by
  rw [List.erase_eq_eraseP', keys, keys, List.eraseP_map]
  rfl

private theorem mem_entries_carryOut (h : call.lookedUp? = none) {e : CacheEntry κ ν}
    (he : e ∈ (c.carryOut call).2.entries) :
    e ∈ c.entries ∨ (∃ v, call = .insert e.key v) ∧ e.hits = 1 := by
  cases call with
  | probe k => cases h
  | write k f => cases h
  | insert k v =>
      have hadded : ∀ old : List (CacheEntry κ ν), old ⊆ c.entries → e ∈ old ++ [⟨k, v, 1⟩] →
          e ∈ c.entries ∨ (∃ v', CacheCall.insert k v = .insert e.key v') ∧ e.hits = 1 := by
        intro old hold hmem
        obtain hmem | hmem := List.mem_append.1 hmem
        · exact Or.inl (hold hmem)
        · obtain rfl := List.mem_singleton.1 hmem
          exact Or.inr ⟨⟨v, rfl⟩, rfl⟩
      rw [carryOut, insert] at he
      split at he
      · exact Or.inl he
      · split at he
        · exact hadded _ (List.Subset.refl _) he
        · exact hadded _ (List.dropLast_subset _) he
  | remove k => exact Or.inl (List.mem_of_mem_eraseP he)

private theorem mem_keys_carryOut (hc : c.keys.Nodup) (hx : x ∈ (c.carryOut call).2.keys) :
    x ∈ c.keys ∨ ∃ v, call = .insert x v := by
  cases hlookedUp : call.lookedUp? with
  | some k =>
      obtain heq | ⟨front, y, back, hkeys, hkeys', -⟩ := keys_lookUp hc hlookedUp
      · exact Or.inl (heq ▸ hx)
      · rw [hkeys'] at hx
        rw [hkeys]
        exact Or.inl (((List.Perm.swap y k back).append_left front).mem_iff.1 hx)
  | none =>
      obtain ⟨e, he, rfl⟩ := List.mem_map.1 hx
      exact (mem_entries_carryOut hlookedUp he).imp List.mem_map_of_mem And.left

private theorem hits_carryOut (hc : c.keys.Nodup) (hallows : c.Allows call)
    (h : call.lookedUp? = none) (hx : x ∈ c.keys) (hx' : x ∈ (c.carryOut call).2.keys) :
    (c.carryOut call).2.hits x = c.hits x := by
  have hc' := nodup_keys_carryOut hc hallows
  obtain ⟨e, he, rfl⟩ := List.mem_map.1 hx'
  obtain hold | ⟨⟨v, rfl⟩, -⟩ := mem_entries_carryOut h he
  · exact (hitsIn_of_mem hc' he).trans (hitsIn_of_mem hc hold).symm
  · exact absurd hx hallows

private theorem hits_inserted (hc : c.keys.Nodup) (hallows : c.Allows (.insert g v))
    (hg : g ∈ (c.carryOut (.insert g v)).2.keys) : (c.carryOut (.insert g v)).2.hits g = 1 := by
  have hc' := nodup_keys_carryOut hc hallows
  obtain ⟨e, he, rfl⟩ := List.mem_map.1 hg
  obtain hold | ⟨-, hone⟩ := mem_entries_carryOut rfl he
  · exact absurd (List.mem_map_of_mem hold) hallows
  · exact (hitsIn_of_mem hc' he).trans hone

/-! ## One call -/

/-- No entry has more hits than are counted. -/
def IsCapped (c : ResultCache κ ν) : Prop :=
  ∀ x ∈ c.keys, c.hits x ≤ maxHits

private theorem IsCapped.carryOut (h : c.IsCapped) (hc : c.keys.Nodup) (hallows : c.Allows call) :
    (c.carryOut call).2.IsCapped := by
  intro x hx
  obtain hold | ⟨v, rfl⟩ := mem_keys_carryOut hc hx
  · have hle := h x hold
    cases hlookedUp : call.lookedUp? with
    | some k =>
        obtain ⟨-, heq⟩ | ⟨-, heq⟩ | ⟨-, heq⟩ := hits_lookUp hc hlookedUp hold
        · exact heq ▸ Nat.min_le_right _ _
        · omega
        · omega
    | none => exact (hits_carryOut hc hallows hlookedUp hold hx).symm ▸ hle
  · rw [hits_inserted hc hallows hx]
    decide

/-- The call is a look-up that passes over `f`, but not over `g`: it finds `g` or an entry between the
two. -/
def PassesOver (c : ResultCache κ ν) (f g : κ) (call : CacheCall κ ν) : Prop :=
  ∃ k, call.lookedUp? = some k ∧ c.Ahead f k ∧ (k = g ∨ c.Ahead k g)

private theorem hits_le_carryOut (hc : c.keys.Nodup) (hcapped : c.IsCapped)
    (hallows : c.Allows call) (h : c.Ahead f g) (h' : (c.carryOut call).2.Ahead f g)
    (hle : c.hits g ≤ c.hits f) (hover : ¬ c.PassesOver f g call) :
    (c.carryOut call).2.hits g ≤ (c.carryOut call).2.hits f := by
  cases hlookedUp : call.lookedUp? with
  | none =>
      rw [hits_carryOut hc hallows hlookedUp h.mem_left h'.mem_left,
        hits_carryOut hc hallows hlookedUp h.mem_right h'.mem_right]
      exact hle
  | some k =>
      have hmax := hcapped g h.mem_right
      obtain ⟨rfl, hg⟩ | ⟨hpassed, hg⟩ | ⟨hbehind, hg⟩ := hits_lookUp hc hlookedUp h.mem_right
      · exact absurd ⟨g, hlookedUp, h, Or.inl rfl⟩ hover
      · -- what passes over `g` passes over `f` too
        have hf : (c.carryOut call).2.hits f = c.hits f - 1 := by
          obtain ⟨rfl, -⟩ | ⟨-, hf⟩ | ⟨hkf, -⟩ := hits_lookUp hc hlookedUp h.mem_left
          · obtain hnot | hgf := hpassed
            · exact absurd h.mem_left hnot
            · exact absurd hgf (h.asymm hc)
          · exact hf
          · obtain hnot | hgk := hpassed
            · exact absurd hkf.mem_left hnot
            · exact absurd (hgk.trans hc hkf) (h.asymm hc)
        omega
      · obtain ⟨-, hf⟩ | ⟨hpassed, -⟩ | ⟨-, hf⟩ := hits_lookUp hc hlookedUp h.mem_left
        · omega
        · obtain hnot | hfk := hpassed
          · exact absurd hbehind.mem_left hnot
          · exact absurd ⟨k, hlookedUp, hfk, Or.inr hbehind⟩ hover
        · omega

/-- The call brings `f` in front of `g`: it puts `g` in behind `f`, or it is a look-up that takes `f` past
`g`, which has fewer hits then. -/
inductive Settles (c : ResultCache κ ν) (f g : κ) : CacheCall κ ν → Prop
  | puts (v : ν) (held : f ∈ c.keys) (fresh : g ∉ c.keys) : Settles c f g (.insert g v)
  | overtakes {call : CacheCall κ ν} (finds : call.lookedUp? = some f) (behind : c.Ahead g f)
      (fewer : (c.carryOut call).2.hits g < (c.carryOut call).2.hits f) : Settles c f g call

private theorem ahead_or_settles (hc : c.keys.Nodup) (hallows : c.Allows call)
    (h : (c.carryOut call).2.Ahead f g) : c.Ahead f g ∨ c.Settles f g call := by
  cases hlookedUp : call.lookedUp? with
  | some k =>
      rw [Ahead] at h ⊢
      obtain heq | ⟨front, x, back, hkeys, hkeys', hlt⟩ := keys_lookUp hc hlookedUp
      · exact Or.inl (heq ▸ h)
      · rw [hkeys'] at h
        obtain h | ⟨rfl, rfl⟩ := pair_swap h
        · exact Or.inl (hkeys ▸ h)
        · refine Or.inr (.overtakes hlookedUp ?_ hlt)
          rw [Ahead, hkeys]
          exact (List.sublist_append_left _ back).trans (by simp)
  | none =>
      cases call with
      | probe k => cases hlookedUp
      | write k f => cases hlookedUp
      | insert k v =>
          have hadded : ∀ old : List κ, old.Sublist c.keys → [f, g].Sublist (old ++ [k]) →
              c.Ahead f g ∨ c.Settles f g (.insert k v) := by
            intro old hold hpair
            obtain hpair | ⟨hf, hg⟩ | hpair := pair_append_iff.1 hpair
            · exact Or.inl (hpair.trans hold)
            · obtain rfl := List.mem_singleton.1 hg
              exact Or.inr (.puts v (hold.subset hf) hallows)
            · exact absurd hpair.length_le (by simp)
          change [f, g].Sublist (c.insert k v).2.keys at h
          obtain heq | heq | heq := keys_insert c k v
          · rw [heq] at h
            exact Or.inl h
          · rw [heq] at h
            exact hadded c.keys (.refl _) h
          · rw [heq] at h
            exact hadded c.keys.dropLast (List.dropLast_sublist _) h
      | remove k =>
          left
          change [f, g].Sublist (c.remove k).2.keys at h
          rw [keys_remove] at h
          exact h.trans List.erase_sublist

private theorem removed_or_ahead (hc : c.keys.Nodup) (h : c.Ahead f g)
    (hlook : call.lookedUp? ≠ some g) (hput : ∀ v, call ≠ .insert g v)
    (hg : g ∈ (c.carryOut call).2.keys) : call = .remove f ∨ (c.carryOut call).2.Ahead f g := by
  have hne : f ≠ g := by
    rintro rfl
    exact Ahead.irrefl hc h
  cases hlookedUp : call.lookedUp? with
  | some k =>
      right
      rw [Ahead] at h ⊢
      obtain heq | ⟨front, x, back, hkeys, hkeys', -⟩ := keys_lookUp hc hlookedUp
      · rw [heq]
        exact h
      · rw [hkeys] at h
        rw [hkeys']
        obtain h | ⟨-, rfl⟩ := pair_swap h
        · exact h
        · exact absurd hlookedUp hlook
  | none =>
      cases call with
      | probe k => cases hlookedUp
      | write k f => cases hlookedUp
      | insert k v =>
          right
          have hk : g ≠ k := by
            rintro rfl
            exact hput v rfl
          rw [Ahead] at h ⊢
          change [f, g].Sublist (c.insert k v).2.keys
          change g ∈ (c.insert k v).2.keys at hg
          obtain heq | heq | heq := keys_insert c k v
          · rw [heq]
            exact h
          · rw [heq]
            exact h.trans (List.sublist_append_left _ _)
          · rw [heq, List.mem_append, List.mem_singleton, or_iff_left hk] at hg
            have hgold : g ∈ c.keys.dropLast := hg
            rw [heq]
            exact (pair_dropLast hc h hgold).trans (List.sublist_append_left _ _)
      | remove k =>
          change g ∈ (c.remove k).2.keys at hg
          rw [keys_remove, hc.mem_erase_iff] at hg
          by_cases hf : f = k
          · rw [hf]
            exact Or.inl rfl
          · right
            have herase : [f, g].erase k = [f, g] :=
              List.erase_of_not_mem (by simp [Ne.symm hf, Ne.symm hg.1])
            have hpair := h.erase k
            rw [herase, ← keys_remove] at hpair
            exact hpair

/-! ## Runs -/

private theorem admits_append {more : List (CacheCall κ ν)} :
    c.Admits (calls ++ more) ↔ c.Admits calls ∧ (c.run calls).Admits more := by
  induction calls generalizing c with
  | nil => exact (and_iff_right trivial).symm
  | cons call rest ih =>
      rw [List.cons_append, Admits, Admits, ih, and_assoc]
      rfl

private theorem run_append {more : List (CacheCall κ ν)} :
    c.run (calls ++ more) = (c.run calls).run more :=
  List.foldl_append

/-- The call brought `f` in front of `g`, and there it stayed. If it has fewer hits than `g` now, it had
none left when `g` was put in, or one of the calls after that passed over it alone. -/
structure Outranks (c : ResultCache κ ν) (f g : κ) (call : CacheCall κ ν)
    (after : List (CacheCall κ ν)) : Prop where
  settles : c.Settles f g call
  ahead : ∀ done, done <+: after → (c.run (call :: done)).Ahead f g
  fewer : (c.run (call :: after)).hits f < (c.run (call :: after)).hits g →
    (∃ v, call = .insert g v) ∧ c.hits f = 0 ∨
      ∃ done later, done ++ [later] <+: after ∧ (c.run (call :: done)).PassesOver f g later

private theorem outranks_of_settles (hc : c.keys.Nodup) (hallows : c.Allows call)
    (hsettles : c.Settles f g call) (hahead : (c.carryOut call).2.Ahead f g) :
    c.Outranks f g call [] where
  settles := hsettles
  ahead done hdone := by
    obtain rfl := List.prefix_nil.1 hdone
    exact hahead
  fewer hlt := by
    change (c.carryOut call).2.hits f < (c.carryOut call).2.hits g at hlt
    cases hsettles with
    | puts v held fresh =>
        left
        rw [hits_inserted hc hallows hahead.mem_right,
          hits_carryOut hc hallows rfl held hahead.mem_left] at hlt
        exact ⟨⟨v, rfl⟩, Nat.lt_one_iff.1 hlt⟩
    | overtakes _ _ hfewer => omega

private theorem Outranks.concat {later : CacheCall κ ν} (h : c.Outranks f g call after)
    (hnodup : (c.run (call :: after)).keys.Nodup) (hcapped : (c.run (call :: after)).IsCapped)
    (hallows : (c.run (call :: after)).Allows later)
    (hahead : ((c.run (call :: after)).carryOut later).2.Ahead f g) :
    c.Outranks f g call (after ++ [later]) := by
  have hrun : c.run (call :: (after ++ [later])) = ((c.run (call :: after)).carryOut later).2 := by
    rw [← List.cons_append, run_append]
    rfl
  have hlast := h.ahead after List.prefix_rfl
  refine ⟨h.settles, fun done hdone => ?_, fun hlt => ?_⟩
  · obtain rfl | hdone := List.prefix_concat_iff.1 hdone
    · exact hrun ▸ hahead
    · exact h.ahead done hdone
  · rw [hrun] at hlt
    by_cases hover : (c.run (call :: after)).PassesOver f g later
    · exact Or.inr ⟨after, later, List.prefix_rfl, hover⟩
    · have hbefore : (c.run (call :: after)).hits f < (c.run (call :: after)).hits g := by
        by_contra hle
        exact absurd (hits_le_carryOut hnodup hcapped hallows hlast hahead (Nat.le_of_not_lt hle)
          hover) (Nat.not_le_of_lt hlt)
      obtain hput | ⟨done, passing, hdone, hover⟩ := h.fewer hbefore
      · exact Or.inl hput
      · exact Or.inr ⟨done, passing, hdone.trans (List.prefix_append _ _), hover⟩

private theorem isCapped_run (h : c.IsCapped) (hc : c.keys.Nodup) (hadmits : c.Admits calls) :
    (c.run calls).IsCapped := by
  induction calls generalizing c with
  | nil => exact h
  | cons call rest ih =>
      obtain ⟨hallows, hrest⟩ := hadmits
      exact ih (h.carryOut hc hallows) (nodup_keys_carryOut hc hallows) hrest

private theorem exists_outranks {capacity : Nat} (hadmits : (empty capacity).Admits calls)
    (h : ((empty capacity).run calls).Ahead f g) :
    ∃ before call after, calls = before ++ call :: after ∧
      ((empty capacity).run before).Outranks f g call after := by
  -- the last call settled the order of the two, or it was settled before and the call left it alone
  induction calls using List.reverseRecOn with
  | nil => exact absurd h.mem_left List.not_mem_nil
  | append_singleton calls later ih =>
      obtain ⟨hcalls, hallows, -⟩ := admits_append.1 hadmits
      have hnodup := ((isBounded_empty capacity).run hcalls).nodup_keys
      have hcapped : ((empty capacity).run calls).IsCapped :=
        isCapped_run (fun x hx => absurd hx List.not_mem_nil) List.nodup_nil hcalls
      rw [run_append] at h
      obtain hold | hsettles := ahead_or_settles hnodup hallows h
      · obtain ⟨before, call, after, rfl, houtranks⟩ := ih hcalls hold
        rw [run_append] at hnodup hcapped hallows h
        refine ⟨before, call, after ++ [later], by simp, ?_⟩
        exact houtranks.concat hnodup hcapped hallows h
      · exact ⟨calls, later, [], rfl, outranks_of_settles hnodup hallows hsettles h⟩

private theorem mem_keys_run (hc : c.keys.Nodup) (hadmits : c.Admits calls)
    (hput : ∀ v, .insert g v ∉ calls) (hg : g ∈ (c.run calls).keys) : g ∈ c.keys := by
  induction calls generalizing c with
  | nil => exact hg
  | cons call rest ih =>
      have hnodup := nodup_keys_carryOut hc hadmits.1
      have hrest := ih hnodup hadmits.2 (fun v hv => hput v (List.mem_cons_of_mem call hv)) hg
      obtain hmem | ⟨v, rfl⟩ := mem_keys_carryOut hc hrest
      · exact hmem
      · exact absurd List.mem_cons_self (hput v)

private theorem removed_or_ahead_run (hc : c.keys.Nodup) (h : c.Ahead f g)
    (hadmits : c.Admits calls) (hlook : ∀ call ∈ calls, call.lookedUp? ≠ some g)
    (hput : ∀ v, .insert g v ∉ calls) (hg : g ∈ (c.run calls).keys) :
    .remove f ∈ calls ∨ (c.run calls).Ahead f g := by
  induction calls generalizing c with
  | nil => exact Or.inr h
  | cons call rest ih =>
      have hnodup := nodup_keys_carryOut hc hadmits.1
      have hput' : ∀ v, .insert g v ∉ rest := fun v hv => hput v (List.mem_cons_of_mem call hv)
      have hheld := mem_keys_run hnodup hadmits.2 hput' hg
      have hother : ∀ v, call ≠ .insert g v := by
        rintro v rfl
        exact hput v List.mem_cons_self
      obtain ⟨hlook, hlook'⟩ := List.forall_mem_cons.1 hlook
      obtain rfl | hstep := removed_or_ahead hc h hlook hother hheld
      · exact Or.inl List.mem_cons_self
      · obtain hremoved | hahead := ih hnodup hstep hadmits.2 hlook' hput' hg
        · exact Or.inl (List.mem_cons_of_mem call hremoved)
        · exact Or.inr hahead

private theorem exists_evicted (hc : c.keys.Nodup) (hpos : 0 < c.capacity)
    (hfull : c.size = c.capacity) (k : κ) (v : ν) :
    ∃ g w, (c.insert k v).1 = some (g, w) ∧ c.get? g = some w ∧
      ∀ f ∈ c.keys, f ≠ g → c.Ahead f g := by
  have hne : c.entries ≠ [] := by
    intro hnil
    rw [size, hnil, List.length_nil] at hfull
    omega
  have hsplit := List.dropLast_concat_getLast hne
  have hkeys : c.keys = c.entries.dropLast.map CacheEntry.key ++ [(c.entries.getLast hne).key] := by
    rw [keys]
    conv_lhs => rw [← hsplit]
    rw [List.map_append]
    rfl
  refine ⟨(c.entries.getLast hne).key, (c.entries.getLast hne).value, ?_, ?_, fun f hf hother => ?_⟩
  · have hroom : ¬ c.entries.length < c.capacity := Nat.not_lt.2 (Nat.le_of_eq hfull.symm)
    rw [insert, if_neg (Nat.ne_of_gt hpos), if_neg hroom, List.getLast?_eq_some_getLast hne]
    rfl
  · exact (get?_eq_some_iff hc).2 (List.mem_map.2 ⟨_, List.getLast_mem hne, rfl⟩)
  · rw [Ahead, hkeys]
    rw [hkeys, List.mem_append, List.mem_singleton, or_iff_left hother] at hf
    exact pair_append_iff.2 (Or.inr (Or.inl ⟨hf, List.mem_singleton_self _⟩))

/-- Whatever was asked of a cache, an insertion into a full one evicts the last entry of the ranking. At
some call each other entry came to stand in front of it, and stayed there; it has no fewer hits, unless it
had none left when the evicted entry was put in, or was passed over since then by a look-up of that entry
or of one between the two. And as long as an entry is held and nobody looks it up, nothing in front of it
is evicted. -/
theorem evicts_last_in_rank (capacity : Nat) (calls : List (CacheCall κ ν)) (hpos : 0 < capacity)
    (hadmits : (empty capacity).Admits calls) :
    let c := (empty capacity).run calls
    (∀ k v, k ∉ c.keys → c.size = capacity →
      ∃ g w, (c.insert k v).1 = some (g, w) ∧ c.get? g = some w ∧
        ∀ f ∈ c.keys, f ≠ g → ∃ before call after, calls = before ++ call :: after ∧
          ((empty capacity).run before).Outranks f g call after) ∧
    ∀ f g, c.Ahead f g → ∀ later, c.Admits later →
      (∀ call ∈ later, call.lookedUp? ≠ some g) → (∀ v, .insert g v ∉ later) →
        g ∈ (c.run later).keys → .remove f ∈ later ∨ (c.run later).Ahead f g := by
  intro c
  have hbounded : c.IsBounded capacity := (isBounded_empty capacity).run hadmits
  refine ⟨fun k v _ hfull => ?_, fun f g h later hlater hlook hput hg => ?_⟩
  · have hcapacity := hbounded.capacity_eq
    obtain ⟨g, w, hback, hget, hlast⟩ :=
      exists_evicted hbounded.nodup_keys (hcapacity ▸ hpos) (hfull.trans hcapacity.symm) k v
    exact ⟨g, w, hback, hget, fun f hf hne => exists_outranks hadmits (hlast f hf hne)⟩
  · exact removed_or_ahead_run hbounded.nodup_keys h hlater hlook hput hg

/-- An entry without hits is not evicted as long as it stands in front. -/
example : ((empty 2).run [.insert 0 10, .probe 9, .insert 1 11, .insert 2 12]).keys = [0, 2] := by
  decide

/-- Key 1 is evicted after the look-ups of keys 2 and 1. Key 0 has fewer hits and came in before. -/
theorem evicts_last_of_three :
    let calls : List (CacheCall Nat Nat) :=
      [.insert 0 10, .insert 1 11, .insert 2 12, .probe 2, .probe 1]
    let c := (empty 3).run calls
    (0 < 3 ∧ (empty 3).Admits calls) ∧ c.keys = [0, 2, 1] ∧ (c.insert 3 13).1 = some (1, 11) ∧
      ∃ before call after, calls = before ++ call :: after ∧
        ((empty 3).run before).Outranks 0 1 call after := by
  intro calls c
  have hadmits : (empty 3).Admits calls := by decide
  obtain ⟨g, w, hback, -, houtranks⟩ :=
    (evicts_last_in_rank 3 calls (by decide) hadmits).1 3 13 (by decide) (by decide)
  have hevicted : (c.insert 3 13).1 = some (1, 11) := by decide
  obtain ⟨rfl, rfl⟩ := Prod.mk.inj (Option.some.inj (hback.symm.trans hevicted))
  exact ⟨⟨by decide, hadmits⟩, by decide, hevicted, houtranks 0 (by decide) (by decide)⟩

/-- Key 1, which was looked up last, is evicted with one hit; key 0, which was never looked up, stays
without any. -/
theorem evicts_entry_just_found :
    let calls : List (CacheCall Nat Nat) :=
      [.insert 0 10, .insert 1 11, .insert 2 12, .probe 2, .probe 1]
    let c := (empty 3).run calls
    (empty 3).Admits calls ∧ 3 ∉ c.keys ∧ c.size = 3 ∧ (c.insert 3 13).1 = some (1, 11) ∧
      0 ∈ c.keys ∧ c.hits 0 = 0 ∧ c.hits 1 = 1 := by
  decide

end Entail.ResultCache
