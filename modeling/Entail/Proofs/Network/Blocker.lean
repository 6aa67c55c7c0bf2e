import Entail.Network
import Entail.Proofs.Network.Chain
import Entail.Proofs.Network.Count
/-!
# Blockers

A blocker counts, for each token it has received, the matches of its conjunction, and lets the tokens
pass for which there are none. Whatever enters or leaves, the changes it passes on lead from the
tokens that passed before to those that pass afterwards.
-/

namespace Entail

variable {held : Quad → Prop} {conjunction : List Pattern} {bound : OrderedSet Variable}

namespace Blocker

open Partial (Matches)

/-- The tokens of `upstream` that the conjunction does not block. -/
def Passes (upstream : Token → Prop) (held : Quad → Prop) (conjunction : List Pattern) (t : Token) :
    Prop :=
  upstream t ∧ ¬ Condition.IsBlocked held t.bindings conjunction

theorem isBlocked_iff_matches {upstream : Token → Prop} {t : Token} (ht : upstream t) :
    Condition.IsBlocked held t.bindings conjunction ↔
      ∃ p, Matches upstream held conjunction p ∧ p.seed = t := by
  rw [Condition.isBlocked_iff_join?]
  constructor
  · rintro ⟨facts, hheld, m, hjoin⟩
    exact ⟨⟨t, m, facts⟩, ⟨ht, hheld, hjoin⟩, rfl⟩
  · rintro ⟨p, hp, rfl⟩
    exact ⟨p.facts, hp.held, p.bindings, hp.join⟩

/-- The counts of `found` by seed, for the seeds of `upstream`. -/
structure Tallies (counts : OrderedMap Token Nat) (upstream : Token → Prop)
    (found : Partial → Prop) : Prop where
  counted : ∀ t, upstream t → ∃ n, counts.get? t = some n
  count : ∀ t n, counts.get? t = some n → upstream t ∧ IsCount (fun p => found p ∧ p.seed = t) n

namespace Tallies

variable {counts : OrderedMap Token Nat} {upstream : Token → Prop} {found old next : Partial → Prop}

theorem congr (h : Tallies counts upstream old) (hiff : ∀ p, old p ↔ next p) :
    Tallies counts upstream next := by
  obtain rfl : old = next := by
    funext p
    exact propext (hiff p)
  exact h

/-- The tokens of `upstream` that are the seed of nothing found. -/
def Free (upstream : Token → Prop) (found : Partial → Prop) (t : Token) : Prop :=
  upstream t ∧ ∀ p, found p → p.seed ≠ t

private theorem free_iff_zero {t : Token} {n : Nat} (ht : upstream t)
    (hn : IsCount (fun p => found p ∧ p.seed = t) n) : Free upstream found t ↔ n = 0 := by
  constructor
  · rintro ⟨_, hfree⟩
    exact hn.unique (IsCount.zero_iff.2 fun p hp => hfree p hp.1 hp.2)
  · rintro rfl
    exact ⟨ht, fun p hp hseed => IsCount.zero_iff.1 hn p ⟨hp, hseed⟩⟩

private theorem count_other {p : Partial} {t : Token} {u : Update} (ht : t ≠ p.seed) {n : Nat} :
    IsCount (fun r => u.apply found p r ∧ r.seed = t) n ↔
      IsCount (fun r => found r ∧ r.seed = t) n := by
  have hsame : (fun r => u.apply found p r ∧ r.seed = t) = fun r => found r ∧ r.seed = t := by
    funext r
    refine propext (and_congr_left fun hr => Update.apply_iff_of_ne ?_)
    rintro rfl
    exact ht hr.symm
  rw [hsame]

private theorem count_raised {p : Partial} {n : Nat}
    (h : IsCount (fun r => found r ∧ r.seed = p.seed) n) (hp : ¬ found p) :
    IsCount (fun r => Update.insert.apply found p r ∧ r.seed = p.seed) (n + 1) := by
  refine (h.add (a := p) fun hr => hp hr.1).congr fun r => ?_
  constructor
  · rintro (⟨hr, hseed⟩ | rfl)
    · exact ⟨Or.inl hr, hseed⟩
    · exact ⟨Or.inr rfl, rfl⟩
  · rintro ⟨hr | rfl, hseed⟩
    · exact Or.inl ⟨hr, hseed⟩
    · exact Or.inr rfl

private theorem count_lowered {p : Partial} {n : Nat}
    (h : IsCount (fun r => found r ∧ r.seed = p.seed) n) (hp : found p) :
    ∃ k, n = k + 1 ∧ IsCount (fun r => Update.remove.apply found p r ∧ r.seed = p.seed) k := by
  obtain ⟨k, hk, hcount⟩ := h.sub ⟨hp, rfl⟩
  refine ⟨k, hk, hcount.congr fun r => ?_⟩
  exact and_right_comm

private theorem insert_of_count {p : Partial} {u : Update} (h : Tallies counts upstream found)
    (hp : upstream p.seed) {n : Nat}
    (hn : IsCount (fun r => u.apply found p r ∧ r.seed = p.seed) n) :
    Tallies (counts.insert p.seed n) upstream (u.apply found p) := by
  refine ⟨fun t ht => ?_, fun t k hk => ?_⟩
  · rw [OrderedMap.get?_insert]
    split
    · exact ⟨n, rfl⟩
    · exact h.counted t ht
  · rw [OrderedMap.get?_insert] at hk
    by_cases ht : p.seed = t
    · subst ht
      rw [if_pos rfl, Option.some_inj] at hk
      subst hk
      exact ⟨hp, hn⟩
    · rw [if_neg ht] at hk
      obtain ⟨hup, hcount⟩ := h.count t k hk
      exact ⟨hup, (count_other (Ne.symm ht)).2 hcount⟩

private theorem free_apply_other {p : Partial} {t : Token} {u : Update} (ht : t ≠ p.seed) :
    Free upstream (u.apply found p) t ↔ Free upstream found t := by
  have hsame : ∀ r, (u.apply found p r → r.seed ≠ t) ↔ (found r → r.seed ≠ t) := by
    intro r
    by_cases hseed : r.seed = t
    · have hne : r ≠ p := by
        rintro rfl
        exact ht hseed.symm
      rw [Update.apply_iff_of_ne hne]
    · exact iff_of_true (fun _ => hseed) fun _ => hseed
  rw [Free, Free, forall_congr' hsame]

private theorem alters_of_counts {p : Partial} {u : Update} (hp : upstream p.seed)
    {before after : Nat} (hbefore : IsCount (fun r => found r ∧ r.seed = p.seed) before)
    (hafter : IsCount (fun r => u.apply found p r ∧ r.seed = p.seed) after) :
    Alters (if before = 0 then if after = 0 then [] else [.lost p.seed]
      else if after = 0 then [.gained p.seed] else [])
      (Free upstream found) (Free upstream (u.apply found p)) := by
  have hfree := free_iff_zero hp hbefore
  have hfree' := free_iff_zero hp hafter
  have hother : ∀ t, t ≠ p.seed → (Free upstream found t ↔ Free upstream (u.apply found p) t) :=
    fun t ht => (free_apply_other ht).symm
  have hsame : (Free upstream found p.seed ↔ Free upstream (u.apply found p) p.seed) →
      Alters [] (Free upstream found) (Free upstream (u.apply found p)) := by
    intro hseed
    refine .of_iff fun t => ?_
    by_cases ht : t = p.seed
    · rw [ht]
      exact hseed
    · exact hother t ht
  split
  · rename_i hzero
    split
    · rename_i hzero'
      exact hsame (iff_of_true (hfree.2 hzero) (hfree'.2 hzero'))
    · rename_i hpos'
      exact .of_lost (hfree.2 hzero) (fun h => hpos' (hfree'.1 h)) hother
  · rename_i hpos
    split
    · rename_i hzero'
      exact .of_gained (fun h => hpos (hfree.1 h)) (hfree'.2 hzero') hother
    · rename_i hpos'
      rw [← hfree] at hpos
      rw [← hfree'] at hpos'
      exact hsame (iff_of_false hpos hpos')

private theorem raise_spec (h : Tallies counts upstream found) {p : Partial} (hp : upstream p.seed)
    (hfresh : ¬ found p) {n : Nat} (hn : counts.get? p.seed = some n) :
    Tallies (counts.insert p.seed (n + 1)) upstream (Update.insert.apply found p) ∧
      Alters (if n = 0 then [.lost p.seed] else []) (Free upstream found)
        (Free upstream (Update.insert.apply found p)) := by
  have hcount := (h.count p.seed n hn).2
  have hcount' := count_raised hcount hfresh
  have halters := alters_of_counts hp hcount hcount'
  rw [if_neg n.succ_ne_zero, if_neg n.succ_ne_zero] at halters
  exact ⟨insert_of_count h hp hcount', halters⟩

private theorem lower_spec (h : Tallies counts upstream found) {p : Partial} (hp : upstream p.seed)
    (hfound : found p) {n : Nat} (hn : counts.get? p.seed = some (n + 1)) :
    Tallies (counts.insert p.seed n) upstream (Update.remove.apply found p) ∧
      Alters (if n = 0 then [.gained p.seed] else []) (Free upstream found)
        (Free upstream (Update.remove.apply found p)) := by
  have hcount := (h.count p.seed (n + 1) hn).2
  obtain ⟨k, hk, hcount'⟩ := count_lowered hcount hfound
  obtain rfl : n = k := Nat.succ.inj hk
  have halters := alters_of_counts hp hcount hcount'
  rw [if_neg n.succ_ne_zero] at halters
  exact ⟨insert_of_count h hp hcount', halters⟩

private theorem runStage_raise (h : Tallies counts upstream old) {ps : List Partial}
    (hgains : Gains old next ps) (hseeds : ∀ p, next p → upstream p.seed) :
    ∃ out counts', runStage raise counts ps = .ok (out, counts') ∧
      Tallies counts' upstream next ∧ Alters out (Free upstream old) (Free upstream next) := by
  induction ps generalizing counts old with
  | nil =>
      obtain rfl : old = next := by
        funext p
        exact propext (hgains.iff_of_nil p)
      exact ⟨[], counts, rfl, h, .nil _⟩
  | cons p rest ih =>
      obtain ⟨hnew, hfresh, hrest⟩ := hgains.cons
      have hp := hseeds p hnew
      obtain ⟨n, hn⟩ := h.counted p.seed hp
      obtain ⟨h₁, halters⟩ := raise_spec h hp hfresh hn
      obtain ⟨out, counts', hrun, h₂, halters'⟩ := ih h₁ hrest
      refine ⟨_ ++ out, counts', ?_, h₂, halters.append halters' fun t hne => ?_⟩
      · rw [runStage, raise, hn]
        simp only [hrun, Result.ok_bind]
        rfl
      · -- a token that is not free any more has a match, and keeps it
        have hblocked : ¬ Free upstream (Update.insert.apply old p) t := by
          intro hfree
          exact hne (iff_of_true ⟨hfree.1, fun r hr => hfree.2 r (Or.inl hr)⟩ hfree)
        refine iff_of_false hblocked fun hfree => hblocked ⟨hfree.1, fun r hr => ?_⟩
        exact hfree.2 r (hrest.kept r hr)

private theorem runStage_lower (h : Tallies counts upstream old) {ps : List Partial}
    (hgains : Gains next old ps) (hseeds : ∀ p, old p → upstream p.seed) :
    ∃ out counts', runStage lower counts ps = .ok (out, counts') ∧
      Tallies counts' upstream next ∧ Alters out (Free upstream old) (Free upstream next) := by
  induction ps generalizing counts old with
  | nil =>
      obtain rfl : next = old := by
        funext p
        exact propext (hgains.iff_of_nil p)
      exact ⟨[], counts, rfl, h, .nil _⟩
  | cons p rest ih =>
      obtain ⟨hold, hgone, hrest⟩ := hgains.cons_large
      have hp := hseeds p hold
      obtain ⟨n, hn⟩ := h.counted p.seed hp
      obtain ⟨k, rfl, _⟩ := count_lowered (h.count p.seed n hn).2 hold
      obtain ⟨h₁, halters⟩ := lower_spec h hp hold hn
      obtain ⟨out, counts', hrun, h₂, halters'⟩ := ih h₁ hrest fun r hr => hseeds r hr.1
      refine ⟨_ ++ out, counts', ?_, h₂, halters.append halters' fun t hne => ?_⟩
      · rw [runStage, lower, hn]
        simp only [hrun, Result.ok_bind]
        rfl
      · -- a token that has come free stays free
        have hfree : Free upstream (Update.remove.apply old p) t := by
          by_contra hblocked
          refine hne (iff_of_false (fun hfree => hblocked ?_) hblocked)
          exact ⟨hfree.1, fun r hr => hfree.2 r hr.1⟩
        exact iff_of_true hfree ⟨hfree.1, fun r hr => hfree.2 r (hrest.kept r hr)⟩

end Tallies

/-- The blocker has received the tokens of `upstream` and the quads of `held`. -/
structure Holds (k : Blocker) (bound : OrderedSet Variable) (conjunction : List Pattern)
    (upstream : Token → Prop) (held : Quad → Prop) : Prop where
  chain : k.chain.Holds upstream held bound [] conjunction
  binds : JoinChain.Binds bound upstream
  tallies : Tallies k.counts upstream (Matches upstream held conjunction)

theorem holds_ofPatterns (bound : OrderedSet Variable) (conjunction : List Pattern) :
    (ofPatterns bound conjunction).Holds bound conjunction (fun _ => False) fun _ => False where
  chain := JoinChain.holds_ofPatterns bound conjunction
  binds := nofun
  tallies := ⟨nofun, fun t n hn => by cases hn⟩

variable {k : Blocker} {upstream upstream' : Token → Prop}

private theorem free_iff_passes {t : Token} :
    Tallies.Free upstream (Matches upstream held conjunction) t ↔
      Passes upstream held conjunction t := by
  refine and_congr_right fun ht => ?_
  rw [isBlocked_iff_matches ht, not_exists]
  exact forall_congr' fun _ => not_and.symm

private theorem alters_passes {old next : Quad → Prop} {out : List (Change Token)}
    (h : Alters out (Tallies.Free upstream (Matches upstream old conjunction))
      (Tallies.Free upstream (Matches upstream next conjunction))) :
    Alters out (Passes upstream old conjunction) (Passes upstream next conjunction) :=
  h.congr (fun _ => free_iff_passes) fun _ => free_iff_passes

theorem Holds.factInserted_spec (h : k.Holds bound conjunction upstream held) (q : Quad) :
    ∃ out k', k.factInserted q = .ok (out, k') ∧
      k'.Holds bound conjunction upstream (Update.insert.apply held q) ∧
      Alters out (Passes upstream held conjunction)
        (Passes upstream (Update.insert.apply held q) conjunction) := by
  obtain ⟨found, chain, hmeet, hchain, hgains⟩ := h.chain.meet_nil_spec h.binds .insert q
  obtain ⟨out, counts, hrun, htallies, halters⟩ :=
    h.tallies.runStage_raise hgains fun p hp => hp.seed
  refine ⟨out, ⟨chain, counts⟩, ?_, ⟨hchain, h.binds, htallies⟩, alters_passes halters⟩
  rw [factInserted, JoinChain.insertFact, hmeet]
  simp only [hrun, Result.ok_bind]
  rfl

theorem Holds.factRemoved_spec (h : k.Holds bound conjunction upstream held) (q : Quad) :
    ∃ out k', k.factRemoved q = .ok (out, k') ∧
      k'.Holds bound conjunction upstream (Update.remove.apply held q) ∧
      Alters out (Passes upstream held conjunction)
        (Passes upstream (Update.remove.apply held q) conjunction) := by
  obtain ⟨found, chain, hmeet, hchain, hgains⟩ := h.chain.meet_nil_spec h.binds .remove q
  obtain ⟨out, counts, hrun, htallies, halters⟩ :=
    h.tallies.runStage_lower hgains fun p hp => hp.seed
  refine ⟨out, ⟨chain, counts⟩, ?_, ⟨hchain, h.binds, htallies⟩, alters_passes halters⟩
  rw [factRemoved, JoinChain.removeFact, hmeet]
  simp only [hrun, Result.ok_bind]
  rfl

/-! ## Receiving tokens -/

private theorem passes_apply_other {u : Update} {t s : Token} (hs : s ≠ t) :
    Passes upstream held conjunction s ↔ Passes (u.apply upstream t) held conjunction s :=
  and_congr_left fun _ => (Update.apply_iff_of_ne hs).symm

private theorem matches_apply_other {u : Update} {t : Token} {p : Partial} (hp : p.seed ≠ t) :
    Matches (u.apply upstream t) held conjunction p ↔ Matches upstream held conjunction p := by
  have hseed : u.apply upstream t p.seed ↔ upstream p.seed := Update.apply_iff_of_ne hp
  constructor
  · rintro ⟨hs, hheld, hjoin⟩
    exact ⟨hseed.1 hs, hheld, hjoin⟩
  · rintro ⟨hs, hheld, hjoin⟩
    exact ⟨hseed.2 hs, hheld, hjoin⟩

private theorem count_apply_other {u : Update} {t s : Token} (hs : s ≠ t) {n : Nat}
    (h : IsCount (fun p => Matches upstream held conjunction p ∧ p.seed = s) n) :
    IsCount (fun p => Matches (u.apply upstream t) held conjunction p ∧ p.seed = s) n :=
  h.congr fun _ => and_congr_left fun hp => (matches_apply_other (hp ▸ hs)).symm

private theorem tallies_insert {counts : OrderedMap Token Nat} {t : Token} {n : Nat}
    (h : Tallies counts upstream (Matches upstream held conjunction))
    (hn : IsCount (fun p => Matches (Update.insert.apply upstream t) held conjunction p ∧
      p.seed = t) n) :
    Tallies (counts.insert t n) (Update.insert.apply upstream t)
      (Matches (Update.insert.apply upstream t) held conjunction) := by
  refine ⟨fun s hs => ?_, fun s m hm => ?_⟩
  · rw [OrderedMap.get?_insert]
    split
    · exact ⟨n, rfl⟩
    · rename_i hne
      exact h.counted s (hs.resolve_right (Ne.symm hne))
  · rw [OrderedMap.get?_insert] at hm
    by_cases hs : t = s
    · subst hs
      rw [if_pos rfl, Option.some_inj] at hm
      subst hm
      exact ⟨Or.inr rfl, hn⟩
    · rw [if_neg hs] at hm
      obtain ⟨hup, hc⟩ := h.count s m hm
      exact ⟨Or.inl hup, count_apply_other (Ne.symm hs) hc⟩

private theorem tallies_erase {counts : OrderedMap Token Nat} {t : Token}
    (h : Tallies counts upstream (Matches upstream held conjunction)) :
    Tallies (counts.erase t) (Update.remove.apply upstream t)
      (Matches (Update.remove.apply upstream t) held conjunction) := by
  refine ⟨fun s hs => ?_, fun s m hm => ?_⟩
  · rw [OrderedMap.get?_erase, if_neg (Ne.symm hs.2)]
    exact h.counted s hs.1
  · rw [OrderedMap.get?_erase] at hm
    by_cases hs : t = s
    · rw [if_pos hs] at hm
      cases hm
    · rw [if_neg hs] at hm
      obtain ⟨hup, hc⟩ := h.count s m hm
      exact ⟨⟨hup, Ne.symm hs⟩, count_apply_other (Ne.symm hs) hc⟩

private theorem receive_gained (h : k.Holds bound conjunction upstream held) {t : Token}
    (ht : ∀ v ∈ bound, t.bindings.contains v = true) (hfresh : ¬ upstream t) :
    ∃ out k', k.receive (.gained t) = .ok (out, k') ∧
      k'.Holds bound conjunction (Update.insert.apply upstream t) held ∧
      Alters out (Passes upstream held conjunction)
        (Passes (Update.insert.apply upstream t) held conjunction) := by
  obtain ⟨found, chain, hadd, hchain, hgains⟩ := h.chain.addSeed_spec h.binds ht hfresh
  have hnew : Update.insert.apply upstream t t := Or.inr rfl
  have hnone : k.counts.contains t = false := by
    rw [← Bool.not_eq_true, OrderedMap.contains_iff]
    rintro ⟨n, hn⟩
    exact hfresh (h.tallies.count t n hn).1
  have hcount : IsCount (fun p => Matches (Update.insert.apply upstream t) held conjunction p ∧
      p.seed = t) found.length := by
    refine .of_list hgains.nodup fun p => ?_
    rw [hgains.mem_iff]
    refine and_congr_right fun hp => ?_
    constructor
    · intro hold
      by_contra hne
      exact hold ((matches_apply_other hne).1 hp)
    · rintro rfl hold
      exact hfresh hold.seed
  have hbinds : JoinChain.Binds bound (Update.insert.apply upstream t) := by
    rintro s (hs | rfl)
    · exact h.binds s hs
    · exact ht
  refine ⟨if found.isEmpty then [.gained t] else [], ⟨chain, k.counts.insert t found.length⟩, ?_,
    ⟨hchain, hbinds, tallies_insert h.tallies hcount⟩, ?_⟩
  · rw [receive, hadd]
    simp only [hnone, Result.ok_bind]
    rfl
  · have hpasses : Passes (Update.insert.apply upstream t) held conjunction t ↔ found = [] := by
      rw [← free_iff_passes, Tallies.free_iff_zero hnew hcount, List.length_eq_zero_iff]
    have hold : ¬ Passes upstream held conjunction t := fun hp => hfresh hp.1
    cases found with
    | nil => exact .of_gained hold (hpasses.2 rfl) fun s hs => passes_apply_other hs
    | cons p rest =>
        refine .of_iff fun s => ?_
        by_cases hs : s = t
        · subst hs
          refine iff_of_false hold fun hp => ?_
          cases hpasses.1 hp
        · exact passes_apply_other hs

private theorem receive_lost (h : k.Holds bound conjunction upstream held) {t : Token}
    (hfresh : upstream t) :
    ∃ out k', k.receive (.lost t) = .ok (out, k') ∧
      k'.Holds bound conjunction (Update.remove.apply upstream t) held ∧
      Alters out (Passes upstream held conjunction)
        (Passes (Update.remove.apply upstream t) held conjunction) := by
  obtain ⟨found, chain, hremove, hchain, _⟩ := h.chain.removeSeed_spec h.binds hfresh
  obtain ⟨n, hn⟩ := h.tallies.counted t hfresh
  have hcount := (h.tallies.count t n hn).2
  have hbinds : JoinChain.Binds bound (Update.remove.apply upstream t) :=
    fun s hs => h.binds s hs.1
  refine ⟨if n = 0 then [.lost t] else [], ⟨chain, k.counts.erase t⟩, ?_,
    ⟨hchain, hbinds, tallies_erase h.tallies⟩, ?_⟩
  · rw [receive, hremove]
    simp only [hn, Result.ok_bind]
    rfl
  · have hpasses : Passes upstream held conjunction t ↔ n = 0 := by
      rw [← free_iff_passes, Tallies.free_iff_zero hfresh hcount]
    have hnew : ¬ Passes (Update.remove.apply upstream t) held conjunction t :=
      fun hp => hp.1.2 rfl
    split
    · rename_i hzero
      exact .of_lost (hpasses.2 hzero) hnew fun s hs => passes_apply_other hs
    · rename_i hpos
      refine .of_iff fun s => ?_
      by_cases hs : s = t
      · subst hs
        exact iff_of_false (fun hp => hpos (hpasses.1 hp)) hnew
      · exact passes_apply_other hs

theorem Holds.receive_spec (h : k.Holds bound conjunction upstream held) {c : Change Token}
    (ht : ∀ v ∈ bound, c.value.bindings.contains v = true) (hfresh : c.IsFresh upstream) :
    ∃ out k', k.receive c = .ok (out, k') ∧ k'.Holds bound conjunction (c.step upstream) held ∧
      Alters out (Passes upstream held conjunction) (Passes (c.step upstream) held conjunction) := by
  cases c with
  | gained t => exact receive_gained h ht hfresh
  | lost t => exact receive_lost h hfresh

theorem Holds.receiveAll_spec (h : k.Holds bound conjunction upstream held)
    {incoming : List (Change Token)} (hincoming : Alters incoming upstream upstream')
    (hbinds : JoinChain.Binds bound upstream') :
    ∃ out k', k.receiveAll incoming = .ok (out, k') ∧
      k'.Holds bound conjunction upstream' held ∧
      Alters out (Passes upstream held conjunction) (Passes upstream' held conjunction) := by
  induction incoming generalizing k upstream with
  | nil =>
      obtain rfl : upstream = upstream' := by
        funext t
        exact propext (hincoming.iff_of_nil t)
      exact ⟨[], k, rfl, h, .nil _⟩
  | cons c rest ih =>
      obtain ⟨hfresh, hrest⟩ := hincoming.cons
      have ht : ∀ v ∈ bound, c.value.bindings.contains v = true := by
        by_cases hold : upstream c.value
        · exact h.binds _ hold
        · have hmem : c.value ∈ (c :: rest).map Change.value := List.mem_cons_self
          have hne := hincoming.mem_values.1 hmem
          have hnew : upstream' c.value := by
            by_contra hnew
            exact hne (iff_of_false hold hnew)
          exact hbinds _ hnew
      obtain ⟨out, k₁, h₁, hk₁, halters⟩ := h.receive_spec ht hfresh
      obtain ⟨more, k₂, h₂, hk₂, halters'⟩ := ih hk₁ hrest
      refine ⟨out ++ more, k₂, ?_, hk₂, halters.append halters' fun t hne => ?_⟩
      · exact runStage_cons h₁ h₂
      · -- only the token of the first change differs, and the rest does not mention it
        have ht : t = c.value := by
          by_contra ht
          exact hne (passes_apply_other ht)
        subst ht
        have hnot : c.value ∉ rest.map Change.value := (List.nodup_cons.1 hincoming.nodup).1
        rw [hrest.mem_values, not_not] at hnot
        exact and_congr_left fun _ => hnot

/-! ## Quads -/

theorem onInsert_eq {q : Quad} {incoming blocked out : List (Change Token)} {k₁ k₂ : Blocker}
    (h₁ : k.factInserted q = .ok (blocked, k₁)) (h₂ : k₁.receiveAll incoming = .ok (out, k₂)) :
    k.onInsert q incoming = .ok (blocked ++ out, k₂) := by
  rw [onInsert, h₁]
  simp only [h₂, Result.ok_bind]
  rfl

theorem onRemove_eq {q : Quad} {incoming out released : List (Change Token)} {k₁ k₂ : Blocker}
    (h₁ : k.receiveAll incoming = .ok (out, k₁)) (h₂ : k₁.factRemoved q = .ok (released, k₂)) :
    k.onRemove q incoming = .ok (out ++ released, k₂) := by
  rw [onRemove, h₁]
  simp only [h₂, Result.ok_bind]
  rfl

private theorem isBlocked_mono {held' : Quad → Prop} {b : Bindings}
    (h : Condition.IsBlocked held b conjunction) (hheld : ∀ q, held q → held' q) :
    Condition.IsBlocked held' b conjunction := by
  obtain ⟨inner, facts, hext, hfacts, hfits⟩ := h
  exact ⟨inner, facts, hext, fun q hq => hheld q (hfacts q hq), hfits⟩

theorem Holds.onInsert_spec (h : k.Holds bound conjunction upstream held) (q : Quad)
    {incoming : List (Change Token)} (hincoming : Alters incoming upstream upstream')
    (hbinds : JoinChain.Binds bound upstream') :
    ∃ out k', k.onInsert q incoming = .ok (out, k') ∧
      k'.Holds bound conjunction upstream' (Update.insert.apply held q) ∧
      Alters out (Passes upstream held conjunction)
        (Passes upstream' (Update.insert.apply held q) conjunction) := by
  obtain ⟨blocked, k₁, h₁, hk₁, halters⟩ := h.factInserted_spec q
  obtain ⟨out, k₂, h₂, hk₂, halters'⟩ := hk₁.receiveAll_spec hincoming hbinds
  refine ⟨blocked ++ out, k₂, onInsert_eq h₁ h₂, hk₂, halters.append halters' fun t hne => ?_⟩
  -- a token that the quad has blocked stays blocked
  have hblocked : Condition.IsBlocked (Update.insert.apply held q) t.bindings conjunction := by
    by_contra hfree
    have hbefore : ¬ Condition.IsBlocked held t.bindings conjunction :=
      fun hb => hfree (isBlocked_mono hb fun _ => Or.inl)
    exact hne (and_congr_right fun _ => iff_of_true hbefore hfree)
  exact iff_of_false (fun hp => hp.2 hblocked) fun hp => hp.2 hblocked

theorem Holds.onRemove_spec (h : k.Holds bound conjunction upstream held) (q : Quad)
    {incoming : List (Change Token)} (hincoming : Alters incoming upstream upstream')
    (hbinds : JoinChain.Binds bound upstream') :
    ∃ out k', k.onRemove q incoming = .ok (out, k') ∧
      k'.Holds bound conjunction upstream' (Update.remove.apply held q) ∧
      Alters out (Passes upstream held conjunction)
        (Passes upstream' (Update.remove.apply held q) conjunction) := by
  obtain ⟨out, k₁, h₁, hk₁, halters⟩ := h.receiveAll_spec hincoming hbinds
  obtain ⟨released, k₂, h₂, hk₂, halters'⟩ := hk₁.factRemoved_spec q
  refine ⟨out ++ released, k₂, onRemove_eq h₁ h₂, hk₂, halters.append halters' fun t hne => ?_⟩
  -- a token that came or went was free before the quad went, and is free without it
  have hfree : ¬ Condition.IsBlocked held t.bindings conjunction := by
    intro hblocked
    exact hne (iff_of_false (fun hp => hp.2 hblocked) fun hp => hp.2 hblocked)
  have hfree' : ¬ Condition.IsBlocked (Update.remove.apply held q) t.bindings conjunction :=
    fun hb => hfree (isBlocked_mono hb fun _ hx => hx.1)
  exact and_congr_right fun _ => iff_of_true hfree hfree'

end Blocker

end Entail
