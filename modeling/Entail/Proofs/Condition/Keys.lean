import Entail.Proofs.Network.Solutions
import Mathlib.Data.Multiset.MapFold
/-!
# Condition keys

Conditions have equal keys if they differ only in the order of their patterns and conjunctions. Their
matches then correspond one to one: the facts of a token follow the order of the patterns, and its
bindings do not depend on that order. So the solutions are the same, counted alike, and so are the
rows.
-/

namespace Entail

variable {b : Bindings} {held : Quad → Prop}

namespace Condition

variable {c d : Condition}

/-! ## Keys and multisets -/

/-- The positive patterns with their repetitions, in no order. -/
def positiveBag (c : Condition) : Multiset Pattern :=
  Multiset.ofList c.positives

/-- The negative conjunctions with their repetitions, none of them in any order. -/
def negativeBag (c : Condition) : Multiset (Multiset Pattern) :=
  Multiset.ofList (c.negatives.map Multiset.ofList)

/-- The patterns of a bag in order. -/
private def listed (bag : Multiset Pattern) : List Pattern :=
  Quotient.lift ascending (fun _ _ h => ascending_eq_iff.2 h) bag

private theorem map_ascending_perm_iff {l l' : List (List Pattern)} :
    (l.map ascending).Perm (l'.map ascending) ↔
      (l.map Multiset.ofList).Perm (l'.map Multiset.ofList) := by
  have hbag : ∀ l : List (List Pattern),
      l.map Multiset.ofList = (l.map ascending).map Multiset.ofList := by
    intro l
    rw [List.map_map]
    refine List.map_congr_left fun ps _ => ?_
    exact Multiset.coe_eq_coe.2 (ascending_perm ps).symm
  have hlisted : ∀ l : List (List Pattern),
      l.map ascending = (l.map Multiset.ofList).map listed := by
    intro l
    rw [List.map_map]
    rfl
  constructor
  · intro h
    rw [hbag l, hbag l']
    exact h.map _
  · intro h
    rw [hlisted l, hlisted l']
    exact h.map _

/-- Keys say what a condition consists of, and nothing about the order. -/
theorem key_eq_iff : c.key = d.key ↔
    c.positiveBag = d.positiveBag ∧ c.negativeBag = d.negativeBag ∧
      c.aggregation = d.aggregation := by
  rw [key, key, ConditionKey.mk.injEq, ascending_eq_iff, ascending_eq_iff, map_ascending_perm_iff,
    positiveBag, positiveBag, negativeBag, negativeBag, Multiset.coe_eq_coe, Multiset.coe_eq_coe]

theorem positives_perm_of_key (h : c.key = d.key) : c.positives.Perm d.positives :=
  Multiset.coe_eq_coe.1 (key_eq_iff.1 h).1

theorem aggregation_eq_of_key (h : c.key = d.key) : c.aggregation = d.aggregation :=
  (key_eq_iff.1 h).2.2

theorem exists_perm_of_key (h : c.key = d.key) {conjunction : List Pattern}
    (hmem : conjunction ∈ c.negatives) :
    ∃ conjunction' ∈ d.negatives, conjunction.Perm conjunction' := by
  have hbag : Multiset.ofList conjunction ∈ d.negativeBag := by
    rw [← (key_eq_iff.1 h).2.1]
    exact List.mem_map_of_mem hmem
  obtain ⟨conjunction', hmem', heq⟩ := List.mem_map.1 hbag
  exact ⟨conjunction', hmem', Multiset.coe_eq_coe.1 heq.symm⟩

theorem positiveVariables_eq_of_key (h : c.key = d.key) :
    c.positiveVariables = d.positiveVariables := by
  apply OrderedSet.ext_mem
  intro v
  simp only [mem_positiveVariables, (positives_perm_of_key h).mem_iff]

end Condition

/-! ## Facts in another order -/

namespace Pattern

variable {p : Pattern} {ps ps' ps'' : List Pattern} {f g f' g' : List Quad → List Quad}

theorem fitsAll_cons_iff {qs : List Quad} :
    FitsAll b (p :: ps) qs ↔ ∃ q rest, qs = q :: rest ∧ p.Fits b q ∧ FitsAll b ps rest := by
  cases qs with
  | nil => simp [FitsAll]
  | cons q rest => simp [FitsAll, and_assoc]

/-- `f` puts facts for the patterns `ps` in the order of `ps'`, and `g` puts them back. -/
structure Reorders (f g : List Quad → List Quad) (ps ps' : List Pattern) : Prop where
  fits : ∀ b qs, FitsAll b ps qs → FitsAll b ps' (f qs)
  perm : ∀ qs, (f qs).Perm qs
  back : ∀ b qs, FitsAll b ps qs → g (f qs) = qs

private def belowFirst (f : List Quad → List Quad) : List Quad → List Quad
  | [] => []
  | q :: rest => q :: f rest

private def swapFirst : List Quad → List Quad
  | q :: r :: rest => r :: q :: rest
  | qs => qs

private theorem Reorders.cons (h : Reorders f g ps ps') (p : Pattern) :
    Reorders (belowFirst f) (belowFirst g) (p :: ps) (p :: ps') where
  fits b qs hqs := by
    obtain ⟨q, rest, rfl, hq, hrest⟩ := fitsAll_cons_iff.1 hqs
    exact ⟨hq, h.fits b rest hrest⟩
  perm qs := by
    cases qs with
    | nil => exact .nil
    | cons q rest => exact (h.perm rest).cons q
  back b qs hqs := by
    obtain ⟨q, rest, rfl, _, hrest⟩ := fitsAll_cons_iff.1 hqs
    exact congrArg (q :: ·) (h.back b rest hrest)

private theorem reorders_swap (p p' : Pattern) (ps : List Pattern) :
    Reorders swapFirst swapFirst (p :: p' :: ps) (p' :: p :: ps) where
  fits b qs hqs := by
    obtain ⟨q, _, rfl, hq, hmore⟩ := fitsAll_cons_iff.1 hqs
    obtain ⟨q', rest, rfl, hq', hrest⟩ := fitsAll_cons_iff.1 hmore
    exact ⟨hq', hq, hrest⟩
  perm qs := by
    match qs with
    | [] => exact .nil
    | [q] => exact .refl _
    | q :: r :: rest => exact .swap q r rest
  back b qs hqs := by
    obtain ⟨q, _, rfl, _, hmore⟩ := fitsAll_cons_iff.1 hqs
    obtain ⟨q', rest, rfl, _, _⟩ := fitsAll_cons_iff.1 hmore
    rfl

private theorem Reorders.trans (h : Reorders f g ps ps') (h' : Reorders f' g' ps' ps'') :
    Reorders (f' ∘ f) (g ∘ g') ps ps'' where
  fits b qs hqs := h'.fits b _ (h.fits b qs hqs)
  perm qs := (h'.perm _).trans (h.perm qs)
  back b qs hqs := by
    rw [Function.comp, Function.comp, h'.back b _ (h.fits b qs hqs), h.back b qs hqs]

theorem exists_reorders (h : ps.Perm ps') : ∃ f g, Reorders f g ps ps' ∧ Reorders g f ps' ps := by
  induction h with
  | nil =>
      have hid : Reorders id id [] [] := ⟨fun _ _ => id, .refl, fun _ _ _ => rfl⟩
      exact ⟨id, id, hid, hid⟩
  | cons p _ ih =>
      obtain ⟨f, g, hf, hg⟩ := ih
      exact ⟨belowFirst f, belowFirst g, hf.cons p, hg.cons p⟩
  | swap p p' ps => exact ⟨swapFirst, swapFirst, reorders_swap p' p ps, reorders_swap p p' ps⟩
  | trans _ _ ih ih' =>
      obtain ⟨f, g, hf, hg⟩ := ih
      obtain ⟨f', g', hf', hg'⟩ := ih'
      exact ⟨f' ∘ f, g ∘ g', hf.trans hf', hg'.trans hg⟩

end Pattern

/-! ## Corresponding tokens -/

namespace Token

variable {found found' : Token → Prop} {f g : Token → Token}

/-- `f` takes the tokens of `found` to tokens of `found'` with the same bindings, and `g` takes them
back. -/
structure Corresponds (f g : Token → Token) (found found' : Token → Prop) : Prop where
  maps : ∀ t, found t → found' (f t)
  bindings_eq : ∀ t, (f t).bindings = t.bindings
  back : ∀ t, found t → g (f t) = t

theorem Corresponds.count (h : Corresponds f g found found') (h' : Corresponds g f found' found)
    {n : Nat} (hcount : IsCount (fun t => found t ∧ t.bindings = b) n) :
    IsCount (fun t => found' t ∧ t.bindings = b) n := by
  refine hcount.image (f := f) (g := g) ?_ ?_
  · rintro t ⟨ht, rfl⟩
    exact ⟨⟨h.maps t ht, h.bindings_eq t⟩, h.back t ht⟩
  · rintro t ⟨ht, rfl⟩
    exact ⟨⟨h'.maps t ht, h'.bindings_eq t⟩, h'.back t ht⟩

theorem ascending_bindings (members : OrderedSet Token) :
    (members.toList.map Token.bindings).Pairwise fun a b => (compare a b).isLE = true := by
  rw [List.pairwise_map]
  refine members.pairwise_toList.imp fun {s t} h => ?_
  have hlex : compareLex (compareOn Prod.fst) (compareOn Prod.snd) (s.bindings, s.facts)
      (t.bindings, t.facts) = .lt := h
  have hlex' : ((compare s.bindings t.bindings).then (compare s.facts t.facts)) = .lt := hlex
  cases hb : compare s.bindings t.bindings with
  | lt => rfl
  | eq => rfl
  | gt =>
      rw [hb] at hlex'
      cases hlex'

/-- Corresponding groups have the same rows: the bindings of their members are the same, in the same
order, each as often. -/
theorem Corresponds.isRow {ev : Evaluator} {a : Aggregation} {row : Token}
    (h : Corresponds f g found found') (h' : Corresponds g f found' found)
    (hrow : a.IsRow ev found row) : a.IsRow ev found' row := by
  obtain ⟨key, members, hne, hmem, hrow⟩ := hrow
  have hback : ∀ t ∈ members.toList, g (f t) = t := by
    intro t ht
    obtain ⟨hfound, _⟩ := (hmem t).1 (OrderedSet.mem_toList_iff.1 ht)
    exact h.back t hfound
  let members' : OrderedSet Token := .ofList (members.toList.map f)
  have hmem' : ∀ t, t ∈ members' ↔ ∃ s ∈ members, f s = t := by
    intro t
    rw [OrderedSet.mem_ofList, List.mem_map]
    simp only [OrderedSet.mem_toList_iff]
  have hperm : members'.toList.Perm (members.toList.map f) := by
    refine (List.perm_ext_iff_of_nodup members'.nodup_toList ?_).2 fun t => ?_
    · refine List.Nodup.map_on (fun s hs t ht heq => ?_) members.nodup_toList
      rw [← hback s hs, heq, hback t ht]
    · rw [OrderedSet.mem_toList_iff, OrderedSet.mem_ofList]
  have hbindings : members'.toList.map Token.bindings = members.toList.map Token.bindings := by
    refine eq_of_perm_of_ascending ?_ (ascending_bindings _) (ascending_bindings _)
    have hsame : (members.toList.map f).map Token.bindings = members.toList.map Token.bindings := by
      rw [List.map_map]
      exact List.map_congr_left fun t _ => h.bindings_eq t
    rw [← hsame]
    exact hperm.map Token.bindings
  refine ⟨key, members', ?_, fun t => ?_, ?_⟩
  · intro hempty
    obtain ⟨s, hs⟩ := OrderedSet.exists_mem_of_ne_empty hne
    have hfs : f s ∈ members' := (hmem' (f s)).2 ⟨s, hs, rfl⟩
    rw [hempty] at hfs
    exact OrderedSet.not_mem_empty _ hfs
  · rw [hmem']
    constructor
    · rintro ⟨s, hs, rfl⟩
      obtain ⟨hfound, hkey⟩ := (hmem s).1 hs
      rw [h.bindings_eq s]
      exact ⟨h.maps s hfound, hkey⟩
    · rintro ⟨hfound, hkey⟩
      rw [← h'.bindings_eq t] at hkey
      exact ⟨g t, (hmem _).2 ⟨h'.maps t hfound, hkey⟩, h'.back t hfound⟩
  · rw [Aggregation.row, hbindings]
    exact hrow

end Token

/-! ## Equal keys -/

namespace Condition

variable {c d : Condition} {ev : Evaluator}

private theorem IsBlocked.of_perm {conjunction conjunction' : List Pattern}
    (h : IsBlocked held b conjunction) (hperm : conjunction.Perm conjunction') :
    IsBlocked held b conjunction' := by
  obtain ⟨inner, facts, hextends, hheld, hfits⟩ := h
  obtain ⟨f, g, hf, _⟩ := Pattern.exists_reorders hperm
  exact ⟨inner, f facts, hextends, fun q hq => hheld q ((hf.perm facts).mem_iff.1 hq),
    hf.fits inner facts hfits⟩

private theorem corresponds_of_reorders (hkey : c.key = d.key) {f g : List Quad → List Quad}
    (h : Pattern.Reorders f g c.positives d.positives) (held : Quad → Prop) :
    Token.Corresponds (fun t => ⟨t.bindings, f t.facts⟩) (fun t => ⟨t.bindings, g t.facts⟩)
      (c.IsMatch held) (d.IsMatch held) where
  maps t ht := by
    obtain ⟨hheld, hadmits⟩ := ht
    have hheld' : ∀ q ∈ f t.facts, held q := fun q hq => hheld q ((h.perm t.facts).mem_iff.1 hq)
    refine ⟨hheld', h.fits _ _ hadmits.fits, fun v => ?_, fun conjunction hmem hblocked => ?_⟩
    · rw [← positiveVariables_eq_of_key hkey]
      exact hadmits.binds v
    · obtain ⟨conjunction', hmem', hperm⟩ := exists_perm_of_key hkey.symm hmem
      exact hadmits.unblocked conjunction' hmem' (hblocked.of_perm hperm)
  bindings_eq _ := rfl
  back t ht := congrArg (Token.mk t.bindings) (h.back _ _ ht.2.fits)

/-- The matches of conditions with equal keys correspond to one another. -/
theorem exists_corresponds_of_key (hkey : c.key = d.key) (held : Quad → Prop) :
    ∃ f g, Token.Corresponds f g (c.IsMatch held) (d.IsMatch held) ∧
      Token.Corresponds g f (d.IsMatch held) (c.IsMatch held) := by
  obtain ⟨f, g, hf, hg⟩ := Pattern.exists_reorders (positives_perm_of_key hkey)
  exact ⟨_, _, corresponds_of_reorders hkey hf held, corresponds_of_reorders hkey.symm hg held⟩

theorem isRow_iff_of_key (hkey : c.key = d.key) {a : Aggregation} {row : Token} :
    a.IsRow ev (c.IsMatch held) row ↔ a.IsRow ev (d.IsMatch held) row := by
  obtain ⟨f, g, hf, hg⟩ := exists_corresponds_of_key hkey held
  exact ⟨hf.isRow hg, hg.isRow hf⟩

theorem count_outputs_iff_of_key (hkey : c.key = d.key) {n : Nat} :
    IsCount (fun t => c.IsOutput ev held t ∧ t.bindings = b) n ↔
      IsCount (fun t => d.IsOutput ev held t ∧ t.bindings = b) n := by
  cases ha : c.aggregation with
  | none =>
      have ha' : d.aggregation = none := by
        rw [← aggregation_eq_of_key hkey, ha]
      obtain ⟨f, g, hf, hg⟩ := exists_corresponds_of_key hkey held
      simp only [isOutput_of_none ha, isOutput_of_none ha']
      exact ⟨hf.count hg, hg.count hf⟩
  | some a =>
      have ha' : d.aggregation = some a := by
        rw [← aggregation_eq_of_key hkey, ha]
      simp only [isOutput_of_some ha, isOutput_of_some ha', isRow_iff_of_key hkey]

theorem isSolution_iff_of_key (hkey : c.key = d.key) :
    c.IsSolution ev held b ↔ d.IsSolution ev held b := by
  have hnone : IsCount (fun t => c.IsOutput ev held t ∧ t.bindings = b) 0 ↔
      IsCount (fun t => d.IsOutput ev held t ∧ t.bindings = b) 0 :=
    count_outputs_iff_of_key hkey
  rw [IsCount.zero_iff, IsCount.zero_iff, ← not_exists, ← not_exists] at hnone
  exact not_iff_not.1 hnone

end Condition

end Entail
