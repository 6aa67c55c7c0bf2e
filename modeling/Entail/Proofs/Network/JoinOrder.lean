import Entail.Proofs.Network.ChainCalls
/-!
# Join order

Merging is the partial union of bindings. So a chain whose patterns come in another order finds the
same matches with the same bindings, and what a stage can join is what it has filed under one key.
-/

namespace Entail

variable {seeds : Token → Prop} {held : Quad → Prop} {bound : OrderedSet Variable}
  {pre ps : List Pattern}

theorem Partial.matches_perm {steps steps' : List (Pattern × Quad)} (h : steps.Perm steps')
    {t : Token} {b : Bindings} :
    Matches seeds held (steps.map Prod.fst) ⟨t, b, steps.map Prod.snd⟩ ↔
      Matches seeds held (steps'.map Prod.fst) ⟨t, b, steps'.map Prod.snd⟩ := by
  have hmem : ∀ q, q ∈ steps.map Prod.snd ↔ q ∈ steps'.map Prod.snd := fun q => (h.map _).mem_iff
  have hjoin : Joins ⟨t, b, steps.map Prod.snd⟩ (steps.map Prod.fst) ↔
      Joins ⟨t, b, steps'.map Prod.snd⟩ (steps'.map Prod.fst) := by
    unfold Joins
    rw [Bindings.join?_perm h]
  constructor
  · rintro ⟨hseed, hheld, hjoins⟩
    exact ⟨hseed, fun q hq => hheld q ((hmem q).2 hq), hjoin.1 hjoins⟩
  · rintro ⟨hseed, hheld, hjoins⟩
    exact ⟨hseed, fun q hq => hheld q ((hmem q).1 hq), hjoin.2 hjoins⟩

theorem Partial.exists_extend?_iff {p : Partial} {fact : Quad × Bindings} :
    (∃ child, p.extend? fact = some child) ↔ ∃ b, p.bindings.merge? fact.2 = some b := by
  simp only [extend?, Option.map_eq_some_iff]
  constructor
  · rintro ⟨_, b, hb, _⟩
    exact ⟨b, hb⟩
  · rintro ⟨b, hb⟩
    exact ⟨_, b, hb, rfl⟩

namespace JoinChain

open Partial (Matches)

variable {c : JoinChain}

theorem Holds.mem_complete_iff (h : Holds seeds held bound pre ps c) {p : Partial} :
    p ∈ c.complete ↔ Matches seeds held (pre ++ ps) p := by
  induction h with
  | done _ hcomplete =>
      rw [List.append_nil]
      exact hcomplete.mem_toList_iff
  | stage _ _ _ _ _ ih =>
      rw [List.append_cons]
      exact ih

theorem Holds.complete_perm {steps steps' : List (Pattern × Quad)} {c' : JoinChain}
    (h : Holds seeds held bound [] (steps.map Prod.fst) c)
    (h' : Holds seeds held bound [] (steps'.map Prod.fst) c') (hperm : steps.Perm steps')
    (t : Token) (b : Bindings) :
    ⟨t, b, steps.map Prod.snd⟩ ∈ c.complete ↔ ⟨t, b, steps'.map Prod.snd⟩ ∈ c'.complete := by
  rw [h.mem_complete_iff, h'.mem_complete_iff]
  exact Partial.matches_perm hperm

/-- What stands before a pattern can be joined to a quad of the pattern if and only if both are filed
under one key. -/
def KeysDecide (c : JoinChain) (ps : List Pattern) : Prop :=
  ∀ i < ps.length, ∃ before facts, c.memory? i = some before ∧ c.facts? i = some facts ∧
    ∀ key key', ∀ p ∈ before.partials.bucket key, ∀ fact ∈ facts.facts.bucket key',
      (∃ child, p.extend? fact = some child) ↔ key = key'

/-- Seeds that bind no other variables than those the chain was made for leave no shared variable out
of a key. -/
theorem Remembers.keysDecide (h : c.Remembers bound ps seeds held)
    (hseeds : ∀ t, seeds t → ∀ v, t.bindings.contains v = true → v ∈ bound) : c.KeysDecide ps := by
  intro i hi
  have hpattern : ps[i]? = some ps[i] := List.getElem?_eq_getElem hi
  obtain ⟨before, facts, hbefore, hfacts, hsame, hfiled⟩ := h.facts i ps[i] hpattern
  obtain ⟨m, hm, hvars, hmatches⟩ := h.memory i (Nat.le_of_lt hi)
  rw [hm, Option.some_inj] at hbefore
  subst hbefore
  refine ⟨m, facts, hm, hfacts, fun key key' p hp fact hfact => ?_⟩
  obtain ⟨hmatch, hkey⟩ := (hmatches key p).1 hp
  obtain ⟨_, hfound, hkey'⟩ := (hfiled key' fact.1 fact.2).1 hfact
  have hshared : ∀ v, p.bindings.contains v = true → fact.2.contains v = true →
      v ∈ m.keyVariables := by
    intro v hv hf
    have hbefore : v ∈ bound ∨ ∃ q ∈ ps.take i, v ∈ q.vars := by
      rcases (hmatch.binds v).1 hv with hseed | hearlier
      · exact Or.inl (hseeds _ hmatch.seed v hseed)
      · exact Or.inr hearlier
    exact (hvars v).2 ⟨ps[i], hpattern, Pattern.mem_vars_of_match? hfound hf, hbefore⟩
  rw [hsame] at hkey'
  have hjoin : p.bindings.joinKey m.keyVariables = .ok key := Bindings.joinKey_eq_ok_iff.2 hkey
  have hjoin' : fact.2.joinKey m.keyVariables = .ok key' := Bindings.joinKey_eq_ok_iff.2 hkey'
  rw [Partial.exists_extend?_iff, Bindings.exists_merge?_iff_agrees]
  exact (Bindings.joinKey_eq_iff_agrees hshared hjoin hjoin').symm

end JoinChain

namespace Bindings

/-- Merging succeeds if and only if the two sides agree on every variable that they share, and then the
result binds what either binds, as it does, whichever side is larger. It is commutative, has the empty
bindings as identity, is idempotent, and associative also where it is undefined. On keys of the shared
variables, equal keys mean that the two sides can be merged. So chains that differ in the order of
their patterns find the same complete matches with the same bindings after any calls, and in a chain
whose seeds bind only the variables it was made for, what can be joined is what has one key. -/
theorem merging_is_partial_union (a b c : Bindings) :
    ((∃ m, a.merge? b = some m) ↔ a.Agrees b) ∧
      (∀ m, a.merge? b = some m ↔ m.IsUnion a b) ∧
      a.merge? b = a.extend? b.toList ∧ a.merge? b = b.extend? a.toList ∧
      a.merge? b = b.merge? a ∧ a.merge? ∅ = some a ∧ merge? ∅ a = some a ∧ a.merge? a = some a ∧
      ((a.merge? b).bind fun m => m.merge? c) = ((b.merge? c).bind fun m => a.merge? m) ∧
      (∀ vars : List Variable, (∀ v, v ∈ vars ↔ a.contains v = true ∧ b.contains v = true) →
        ∃ key key', a.joinKey vars = .ok key ∧ b.joinKey vars = .ok key' ∧
          (key = key' ↔ ∃ m, a.merge? b = some m)) ∧
      ∀ (bound : OrderedSet Variable) (calls : List ChainCall), (∀ x ∈ calls, x.Binds bound) →
        ∀ steps steps' : List (Pattern × Quad), steps.Perm steps' →
          ∃ out chain out' chain',
            runStage JoinChain.call (.ofPatterns bound (steps.map Prod.fst)) calls =
              .ok (out, chain) ∧
            runStage JoinChain.call (.ofPatterns bound (steps'.map Prod.fst)) calls =
              .ok (out', chain') ∧
            (∀ t m, ⟨t, m, steps.map Prod.snd⟩ ∈ chain.complete ↔
              ⟨t, m, steps'.map Prod.snd⟩ ∈ chain'.complete) ∧
            ((∀ t, ChainCall.seedsOf calls t → ∀ v, t.bindings.contains v = true → v ∈ bound) →
              chain.KeysDecide (steps.map Prod.fst)) := by
  have hother : a.merge? b = b.extend? a.toList := by
    rw [merge?_comm, merge?_eq_extend?_toList]
  have hempty : merge? ∅ a = some a := by
    rw [merge?_comm, merge?_empty]
  refine ⟨exists_merge?_iff_agrees, fun m => merge?_eq_some_iff_isUnion,
    merge?_eq_extend?_toList a b, hother, merge?_comm a b, merge?_empty a, hempty, merge?_self a,
    merge?_assoc a b c, fun vars hvars => ?_, fun bound calls hcalls steps steps' hperm => ?_⟩
  · obtain ⟨key, hkey⟩ := exists_joinKey_iff.2 fun v hv => ((hvars v).1 hv).1
    obtain ⟨key', hkey'⟩ := exists_joinKey_iff.2 fun v hv => ((hvars v).1 hv).2
    refine ⟨key, key', hkey, hkey', ?_⟩
    rw [exists_merge?_iff_agrees]
    exact joinKey_eq_iff_agrees (fun v ha hb => (hvars v).2 ⟨ha, hb⟩) hkey hkey'
  · obtain ⟨out, chain, hrun, hholds, _, hbuilt⟩ :=
      JoinChain.run_ofPatterns (steps.map Prod.fst) hcalls
    obtain ⟨out', chain', hrun', hholds', _, _⟩ :=
      JoinChain.run_ofPatterns (steps'.map Prod.fst) hcalls
    exact ⟨out, chain, out', chain', hrun, hrun', hholds.complete_perm hholds' hperm,
      (hholds.remembers hbuilt).keysDecide⟩

/-- The two steps of a way can be merged. Bindings in conflict with the first step alone cannot be
merged with both, whichever pair is merged first. The way is found also by the chain that starts with
its second step. -/
theorem merging_is_partial_union_of_steps :
    let knows := fun x y => Pattern.mk .any (.variable ⟨x⟩) (.node (.iri "knows")) (.variable ⟨y⟩)
    let quad := fun s o => Quad.mk (.iri "g") (.iri s) (.iri "knows") (.iri o)
    let steps := [(knows "x" "y", quad "anna" "ben"), (knows "y" "z", quad "ben" "carl")]
    let calls := [.fact (.gained (quad "ben" "carl")), .seed (.gained .root),
      .fact (.gained (quad "anna" "ben"))]
    let a : Bindings := .ofList [(⟨"x"⟩, .iri "anna"), (⟨"y"⟩, .iri "ben")]
    let b : Bindings := .ofList [(⟨"y"⟩, .iri "ben"), (⟨"z"⟩, .iri "carl")]
    let c : Bindings := .ofList [(⟨"x"⟩, .iri "ben")]
    let all : Bindings := .ofList [(⟨"x"⟩, .iri "anna"), (⟨"y"⟩, .iri "ben"), (⟨"z"⟩, .iri "carl")]
    (∀ v, v ∈ [⟨"y"⟩] ↔ a.contains v = true ∧ b.contains v = true) ∧
      (∀ x ∈ calls, x.Binds ∅) ∧ steps.reverse.Perm steps ∧ a.Agrees b ∧ ¬ a.Agrees c ∧
      a.merge? b = some all ∧ all.IsUnion a b ∧
      ((b.merge? c).bind fun m => a.merge? m) = none ∧
      (∃ key, a.joinKey [⟨"y"⟩] = .ok key ∧ b.joinKey [⟨"y"⟩] = .ok key) ∧
      ∃ out chain, runStage JoinChain.call (.ofPatterns ∅ (steps.reverse.map Prod.fst)) calls =
          .ok (out, chain) ∧
        ⟨.root, all, [quad "ben" "carl", quad "anna" "ben"]⟩ ∈ chain.complete ∧
        chain.KeysDecide (steps.reverse.map Prod.fst) := by
  intro knows quad steps calls a b c all
  obtain ⟨hmerges, hunion, _, _, _, _, _, _, hassoc, hkeys, hchains⟩ := merging_is_partial_union a b c
  have hab : a.merge? b = some all := by decide
  have hac : a.merge? c = none := by decide
  have habc : all.merge? c = none := by decide
  have hshared : ∀ v, v ∈ [⟨"y"⟩] ↔ a.contains v = true ∧ b.contains v = true := by
    intro v
    have ha : a.keys = [⟨"x"⟩, ⟨"y"⟩] := by decide
    have hb : b.keys = [⟨"y"⟩, ⟨"z"⟩] := by decide
    rw [← OrderedMap.mem_keys_iff, ← OrderedMap.mem_keys_iff, ha, hb]
    constructor
    · intro hv
      obtain rfl := List.mem_singleton.1 hv
      decide
    · rintro ⟨hva, hvb⟩
      rcases List.mem_pair.1 hva with rfl | rfl
      · exact absurd hvb (by decide)
      · decide
  have hbinds : ∀ x ∈ calls, x.Binds ∅ := fun _ _ _ _ v hv =>
    absurd hv (OrderedSet.not_mem_empty v)
  have hperm : steps.reverse.Perm steps := steps.reverse_perm
  have hseeds : ∀ t, ChainCall.seedsOf calls t → ∀ v, t.bindings.contains v = true →
      v ∈ (∅ : OrderedSet Variable) := by
    rintro t (ht | rfl) v hv
    · exact ht.elim
    · cases hv
  obtain ⟨out, chain, out', chain', hrun, hrun', hsame, hjoins⟩ :=
    hchains ∅ calls hbinds steps.reverse steps hperm
  have hfound : (runStage JoinChain.call (.ofPatterns ∅ (steps.map Prod.fst)) calls).toOption.map
      (fun r => decide (⟨.root, all, steps.map Prod.snd⟩ ∈ r.2.complete)) = some true := by
    decide +kernel
  simp only [hrun', Except.toOption, Option.map_some, Option.some_inj, decide_eq_true_eq] at hfound
  obtain ⟨key, key', hkey, hkey', hequal⟩ := hkeys [⟨"y"⟩] hshared
  have hsameKey : key = key' := hequal.2 ⟨all, hab⟩
  refine ⟨hshared, hbinds, hperm, hmerges.1 ⟨all, hab⟩, fun hagrees => ?_, hab, (hunion all).1 hab,
    ?_, ⟨key, hkey, hsameKey ▸ hkey'⟩, out, chain, hrun, (hsame _ _).2 hfound, hjoins hseeds⟩
  · obtain ⟨m, hm⟩ := (merging_is_partial_union a c b).1.2 hagrees
    rw [hac] at hm
    cases hm
  · rw [← hassoc, hab]
    exact habc

end Bindings

end Entail
