import Entail.Proofs.Network.Memory
/-!
# Join chains

A chain holds, stage by stage, the matches of the patterns so far over a set of seeds and a set of
quads. Carrying a change of the seeds or of the quads into the chain yields the complete matches that
come or go, each of them once.
-/

namespace Entail

variable {u : Update} {seeds seeds' : Token → Prop} {held held' : Quad → Prop}
  {pre ps : List Pattern} {pattern : Pattern}

/-! ## One stage -/

namespace Partial

variable {S S' : Partial → Prop} {rs carried joined : List Partial} {moved : List Quad}

/-- `child` extends a match that satisfies `S` by a held quad. -/
def Extends (pattern : Pattern) (S : Partial → Prop) (held : Quad → Prop) (child : Partial) : Prop :=
  ∃ r q, S r ∧ held q ∧ IsExtension pattern q r child

theorem Extends.iff_of_extension {r child : Partial} {q : Quad} (hjoins : ∀ p, S p → p.Joins ps)
    (hr : r.Joins ps) (hext : IsExtension pattern q r child) :
    Extends pattern S held child ↔ S r ∧ held q := by
  constructor
  · rintro ⟨r', q', hr', hq', hext'⟩
    obtain ⟨rfl, rfl⟩ := hext.parent_eq hr (hjoins r' hr') hext'
    exact ⟨hr', hq'⟩
  · rintro ⟨hS, hq⟩
    exact ⟨r, q, hS, hq, hext⟩

private theorem gains_extends_insert (hS : Gains S S' rs) (hheld : Gains held held' moved)
    (hjoins : ∀ p, S' p → p.Joins ps)
    (hc : ∀ child, child ∈ carried ↔ ∃ r ∈ rs, ∃ q, held q ∧ IsExtension pattern q r child)
    (hj : ∀ child, child ∈ joined ↔ ∃ r, S' r ∧ ∃ q ∈ moved, IsExtension pattern q r child)
    (hnc : carried.Nodup) (hnj : joined.Nodup) :
    Gains (Extends pattern S held) (Extends pattern S' held') (carried ++ joined) := by
  have hjoins' : ∀ p, S p → p.Joins ps := fun p hp => hjoins p (hS.kept p hp)
  refine ⟨?_, fun child => ?_, ?_⟩
  · rw [List.nodup_append']
    refine ⟨hnc, hnj, fun child hcarried hjoined => ?_⟩
    obtain ⟨r, hr, q, hq, hext⟩ := (hc child).1 hcarried
    obtain ⟨r', hr', q', hq', hext'⟩ := (hj child).1 hjoined
    have hS' := ((hS.mem_iff r).1 hr).1
    obtain ⟨_, rfl⟩ := hext.parent_eq (hjoins r hS') (hjoins r' hr') hext'
    exact ((hheld.mem_iff q).1 hq').2 hq
  · rw [List.mem_append, hc, hj]
    constructor
    · rintro (⟨r, hr, q, hq, hext⟩ | ⟨r, hr, q, hq, hext⟩)
      · obtain ⟨hnew, hold⟩ := (hS.mem_iff r).1 hr
        refine ⟨⟨r, q, hnew, hheld.kept q hq, hext⟩, fun h => hold ?_⟩
        exact ((Extends.iff_of_extension hjoins' (hjoins r hnew) hext).1 h).1
      · obtain ⟨hnew, hold⟩ := (hheld.mem_iff q).1 hq
        refine ⟨⟨r, q, hr, hnew, hext⟩, fun h => hold ?_⟩
        exact ((Extends.iff_of_extension hjoins' (hjoins r hr) hext).1 h).2
    · rintro ⟨⟨r, q, hr, hq, hext⟩, hold⟩
      rw [Extends.iff_of_extension hjoins' (hjoins r hr) hext] at hold
      by_cases hq' : held q
      · have hr' : ¬ S r := fun h => hold ⟨h, hq'⟩
        exact Or.inl ⟨r, (hS.mem_iff r).2 ⟨hr, hr'⟩, q, hq', hext⟩
      · exact Or.inr ⟨r, hr, q, (hheld.mem_iff q).2 ⟨hq, hq'⟩, hext⟩
  · rintro child ⟨r, q, hr, hq, hext⟩
    exact ⟨r, q, hS.kept r hr, hheld.kept q hq, hext⟩

private theorem gains_extends_remove (hS : Gains S' S rs) (hheld : Gains held' held moved)
    (hjoins : ∀ p, S p → p.Joins ps)
    (hc : ∀ child, child ∈ carried ↔ ∃ r ∈ rs, ∃ q, held q ∧ IsExtension pattern q r child)
    (hj : ∀ child, child ∈ joined ↔ ∃ r, S' r ∧ ∃ q ∈ moved, IsExtension pattern q r child)
    (hnc : carried.Nodup) (hnj : joined.Nodup) :
    Gains (Extends pattern S' held') (Extends pattern S held) (carried ++ joined) := by
  have hjoins' : ∀ p, S' p → p.Joins ps := fun p hp => hjoins p (hS.kept p hp)
  refine ⟨?_, fun child => ?_, ?_⟩
  · rw [List.nodup_append']
    refine ⟨hnc, hnj, fun child hcarried hjoined => ?_⟩
    obtain ⟨r, hr, q, hq, hext⟩ := (hc child).1 hcarried
    obtain ⟨r', hr', q', hq', hext'⟩ := (hj child).1 hjoined
    obtain ⟨hold, hnew⟩ := (hS.mem_iff r).1 hr
    obtain ⟨rfl, _⟩ := hext.parent_eq (hjoins r hold) (hjoins' r' hr') hext'
    exact hnew hr'
  · rw [List.mem_append, hc, hj]
    constructor
    · rintro (⟨r, hr, q, hq, hext⟩ | ⟨r, hr, q, hq, hext⟩)
      · obtain ⟨hold, hnew⟩ := (hS.mem_iff r).1 hr
        refine ⟨⟨r, q, hold, hq, hext⟩, fun h => hnew ?_⟩
        exact ((Extends.iff_of_extension hjoins' (hjoins r hold) hext).1 h).1
      · obtain ⟨hold, hnew⟩ := (hheld.mem_iff q).1 hq
        refine ⟨⟨r, q, hS.kept r hr, hold, hext⟩, fun h => hnew ?_⟩
        exact ((Extends.iff_of_extension hjoins' (hjoins' r hr) hext).1 h).2
    · rintro ⟨⟨r, q, hr, hq, hext⟩, hnew⟩
      rw [Extends.iff_of_extension hjoins' (hjoins r hr) hext] at hnew
      by_cases hr' : S' r
      · have hq' : ¬ held' q := fun h => hnew ⟨hr', h⟩
        exact Or.inr ⟨r, hr', q, (hheld.mem_iff q).2 ⟨hq, hq'⟩, hext⟩
      · exact Or.inl ⟨r, (hS.mem_iff r).2 ⟨hr, hr'⟩, q, hq, hext⟩
  · rintro child ⟨r, q, hr, hq, hext⟩
    exact ⟨r, q, hS.kept r hr, hheld.kept q hq, hext⟩

/-- What a stage passes on: the matches that moved joined with the quads from before, and the quads
that moved joined with the matches from now on. -/
theorem moves_extends (hS : u.Moves S S' rs) (hheld : u.Moves held held' moved)
    (hjoins : ∀ p, S p ∨ S' p → p.Joins ps)
    (hc : ∀ child, child ∈ carried ↔ ∃ r ∈ rs, ∃ q, held q ∧ IsExtension pattern q r child)
    (hj : ∀ child, child ∈ joined ↔ ∃ r, S' r ∧ ∃ q ∈ moved, IsExtension pattern q r child)
    (hnc : carried.Nodup) (hnj : joined.Nodup) :
    u.Moves (Extends pattern S held) (Extends pattern S' held') (carried ++ joined) := by
  cases u with
  | insert =>
      exact gains_extends_insert hS hheld (fun p hp => hjoins p (Or.inr hp)) hc hj hnc hnj
  | remove =>
      exact gains_extends_remove hS hheld (fun p hp => hjoins p (Or.inl hp)) hc hj hnc hnj

theorem matches_concat : Matches seeds held (ps ++ [pattern]) =
    Extends pattern (Matches seeds held ps) held := by
  funext _
  exact propext matches_concat_iff

end Partial

namespace JoinChain

open Partial (Matches)

variable {bound : OrderedSet Variable}

/-- The chain holds the matches of `pre`, of `pre` and the first of `ps`, and so on, over the seeds
and the held quads. The variables that its stages join on are bound by the seeds or by earlier
patterns. -/
inductive Holds (seeds : Token → Prop) (held : Quad → Prop) (bound : OrderedSet Variable) :
    List Pattern → List Pattern → JoinChain → Prop where
  | done {pre : List Pattern} {complete : PartialMemory} :
    complete.keyVariables = [] → complete.Holds (Matches seeds held pre) →
    Holds seeds held bound pre [] (.done complete)
  | stage {pre ps : List Pattern} {p : Pattern} {before : PartialMemory} {facts : FactMemory}
    {rest : JoinChain} :
    before.Holds (Matches seeds held pre) → facts.Holds p held →
    before.keyVariables = facts.keyVariables →
    (∀ v ∈ facts.keyVariables, v ∈ bound ∨ ∃ p ∈ pre, v ∈ p.vars) →
    Holds seeds held bound (pre ++ [p]) ps rest →
    Holds seeds held bound pre (p :: ps) (.stage before facts rest)

/-- Every seed binds the variables of `bound`. -/
def Binds (bound : OrderedSet Variable) (seeds : Token → Prop) : Prop :=
  ∀ t, seeds t → ∀ v ∈ bound, t.bindings.contains v = true

private theorem exists_key (hseeds : Binds bound seeds) {vars : List Variable}
    (hvars : ∀ v ∈ vars, v ∈ bound ∨ ∃ p ∈ pre, v ∈ p.vars) {r : Partial}
    (hr : Matches seeds held pre r) : ∃ key, r.bindings.joinKey vars = .ok key := by
  rw [Bindings.exists_joinKey_iff]
  intro v hv
  rw [Bindings.contains_iff_of_join? hr.join]
  rcases hvars v hv with hv | hv
  · exact Or.inl (hseeds _ hr.seed v hv)
  · exact Or.inr hv

private theorem push_done {complete : PartialMemory} {rs : List Partial}
    (hvars : complete.keyVariables = []) (hcomplete : complete.Holds (Matches seeds held pre))
    (hmoves : u.Moves (Matches seeds held pre) (Matches seeds' held' pre) rs) :
    ∃ c', (JoinChain.done complete).push u rs = .ok (rs, c') ∧
      Holds seeds' held' bound pre [] c' := by
  have hkeyed : ∀ p, Matches seeds held pre p ∨ Matches seeds' held' pre p →
      ∃ key, complete.IsKey p key := by
    intro p _
    refine ⟨[], ?_⟩
    rw [PartialMemory.IsKey, hvars]
    rfl
  obtain ⟨complete', hrun, hvars', hcomplete'⟩ := hcomplete.runStage_update hmoves hkeyed
  refine ⟨.done complete', ?_, .done (hvars'.trans hvars) hcomplete'⟩
  rw [push, hrun, Result.ok_bind]
  rfl

theorem push_spec {c : JoinChain} (h : Holds seeds held bound pre ps c)
    (hseeds : Binds bound seeds) (hseeds' : Binds bound seeds') {rs : List Partial}
    (hmoves : u.Moves (Matches seeds held pre) (Matches seeds' held pre) rs) :
    ∃ out c', c.push u rs = .ok (out, c') ∧ Holds seeds' held bound pre ps c' ∧
      u.Moves (Matches seeds held (pre ++ ps)) (Matches seeds' held (pre ++ ps)) out := by
  induction h generalizing rs with
  | @done pre complete hvars hcomplete =>
      obtain ⟨c', hpush, hc'⟩ := push_done hvars hcomplete hmoves
      exact ⟨rs, c', hpush, hc', (List.append_nil pre).symm ▸ hmoves⟩
  | @stage pre ps p before facts rest hbefore hfacts hsame hvars _ ih =>
      have hkeyed : ∀ r, Matches seeds held pre r ∨ Matches seeds' held pre r →
          ∃ key, r.bindings.joinKey facts.keyVariables = .ok key := by
        rintro r (hr | hr)
        · exact exists_key hseeds hvars hr
        · exact exists_key hseeds' hvars hr
      have hjoins : ∀ r, Matches seeds held pre r ∨ Matches seeds' held pre r → r.Joins pre := by
        rintro r (hr | hr)
        · exact hr.join
        · exact hr.join
      obtain ⟨before', hrun, hvars', hbefore'⟩ :=
        hbefore.runStage_update hmoves (by simpa only [PartialMemory.IsKey, hsame] using hkeyed)
      obtain ⟨children, hall, hnd, hmem⟩ := hfacts.extendAll_spec hmoves.nodup
        (fun r hr => hjoins r (hmoves.of_mem hr)) fun r hr => hkeyed r (hmoves.of_mem hr)
      have hnone : ∀ child, child ∈ ([] : List Partial) ↔ ∃ r, Matches seeds' held pre r ∧
          ∃ q ∈ ([] : List Quad), Partial.IsExtension p q r child := by simp
      have hmoves' := Partial.moves_extends hmoves (u.moves_nil held) hjoins hmem hnone hnd
        List.nodup_nil
      rw [List.append_nil, ← Partial.matches_concat, ← Partial.matches_concat] at hmoves'
      obtain ⟨out, rest', hpush, hrest', hout⟩ := ih hmoves'
      refine ⟨out, .stage before' facts rest', ?_,
        .stage hbefore' hfacts (hvars'.trans hsame) hvars hrest', ?_⟩
      · rw [push, hrun, Result.ok_bind]
        simp only [hall, hpush, Result.ok_bind]
        rfl
      · rw [List.append_cons]
        exact hout

theorem meet_spec {c : JoinChain} (h : Holds seeds held bound pre ps c)
    (hseeds : Binds bound seeds) {q : Quad} {rs : List Partial}
    (hmoves : u.Moves (Matches seeds held pre) (Matches seeds (u.apply held q) pre) rs) :
    ∃ out c', c.meet u q rs = .ok (out, c') ∧ Holds seeds (u.apply held q) bound pre ps c' ∧
      u.Moves (Matches seeds held (pre ++ ps)) (Matches seeds (u.apply held q) (pre ++ ps)) out := by
  induction h generalizing rs with
  | @done pre complete hvars hcomplete =>
      obtain ⟨c', hpush, hc'⟩ := push_done hvars hcomplete hmoves
      exact ⟨rs, c', hpush, hc', (List.append_nil pre).symm ▸ hmoves⟩
  | @stage pre ps p before facts rest hbefore hfacts hsame hvars _ ih =>
      have hkeyed : ∀ r, Matches seeds held pre r ∨ Matches seeds (u.apply held q) pre r →
          ∃ key, r.bindings.joinKey facts.keyVariables = .ok key := by
        rintro r (hr | hr)
        · exact exists_key hseeds hvars hr
        · exact exists_key hseeds hvars hr
      have hjoins : ∀ r, Matches seeds held pre r ∨ Matches seeds (u.apply held q) pre r →
          r.Joins pre := by
        rintro r (hr | hr)
        · exact hr.join
        · exact hr.join
      obtain ⟨before', hrun, hvars', hbefore'⟩ :=
        hbefore.runStage_update hmoves (by simpa only [PartialMemory.IsKey, hsame] using hkeyed)
      obtain ⟨carried, hall, hnc, hcarried⟩ := hfacts.extendAll_spec hmoves.nodup
        (fun r hr => hjoins r (hmoves.of_mem hr)) fun r hr => hkeyed r (hmoves.of_mem hr)
      obtain ⟨met, facts', hupdate, hvarsf, hfacts', hmet⟩ := hfacts.update_spec u q
      obtain ⟨joined, hby, hnj, hjoined⟩ := hbefore'.extendBy_spec
        (fun r hr => hjoins r (Or.inr hr)) hmet (by rw [hvars', hsame]; exact hfacts.keyed)
      obtain ⟨moved, hmoved, hmem⟩ := u.exists_moves_apply held q
      have hjoined' : ∀ child, child ∈ joined ↔ ∃ r, Matches seeds (u.apply held q) pre r ∧
          ∃ x ∈ moved, Partial.IsExtension p x r child := by
        intro child
        rw [hjoined]
        simp only [hmem]
        constructor
        · rintro ⟨r, hr, hfresh, hext⟩
          exact ⟨r, hr, q, ⟨rfl, hfresh⟩, hext⟩
        · rintro ⟨r, hr, _, ⟨rfl, hfresh⟩, hext⟩
          exact ⟨r, hr, hfresh, hext⟩
      have hmoves' := Partial.moves_extends hmoves hmoved hjoins hcarried hjoined' hnc hnj
      rw [← Partial.matches_concat, ← Partial.matches_concat] at hmoves'
      obtain ⟨out, rest', hmeet, hrest', hout⟩ := ih hmoves'
      have hstage := Holds.stage hbefore' hfacts' ((hvars'.trans hsame).trans hvarsf.symm)
        (by rwa [hvarsf]) hrest'
      refine ⟨out, _, ?_, hstage, ?_⟩
      · rw [meet, hrun, Result.ok_bind]
        simp only [hall, hupdate, hby, hmeet, Result.ok_bind]
        rfl
      · rw [List.append_cons]
        exact hout

/-! ## Seeds and quads -/

private theorem apply_seeds_iff {t : Token} (hfresh : u.IsFresh seeds t) :
    u.Moves (Matches seeds held []) (Matches (u.apply seeds t) held []) [.ofSeed t] := by
  have hmatch : ∀ (T : Token → Prop) p, Matches T held [] p ↔ T p.seed ∧ p = .ofSeed p.seed :=
    fun T p => Partial.matches_nil_iff
  have heq : Matches (u.apply seeds t) held [] =
      u.apply (Matches seeds held []) (.ofSeed t) := by
    funext p
    apply propext
    rw [hmatch]
    cases u with
    | insert =>
        simp only [Update.apply]
        rw [hmatch]
        constructor
        · rintro ⟨hp | hp, hof⟩
          · exact Or.inl ⟨hp, hof⟩
          · exact Or.inr (hp ▸ hof)
        · rintro (⟨hp, hof⟩ | rfl)
          · exact ⟨Or.inl hp, hof⟩
          · exact ⟨Or.inr rfl, rfl⟩
    | remove =>
        simp only [Update.apply]
        rw [hmatch]
        constructor
        · rintro ⟨⟨hp, hne⟩, hof⟩
          refine ⟨⟨hp, hof⟩, ?_⟩
          rintro rfl
          exact hne rfl
        · rintro ⟨⟨hp, hof⟩, hne⟩
          exact ⟨⟨hp, fun heq => hne (heq ▸ hof)⟩, hof⟩
  have hfresh' : u.IsFresh (Matches seeds held []) (.ofSeed t) := by
    cases u with
    | insert => exact fun h => hfresh ((hmatch seeds _).1 h).1
    | remove => exact (hmatch seeds _).2 ⟨hfresh, rfl⟩
  rw [heq]
  exact Update.moves_apply hfresh'

theorem Holds.addSeed_spec {c : JoinChain} (h : Holds seeds held bound [] ps c)
    (hseeds : Binds bound seeds) {t : Token} (ht : ∀ v ∈ bound, t.bindings.contains v = true)
    (hfresh : ¬ seeds t) :
    ∃ out c', c.addSeed t = .ok (out, c') ∧
      Holds (Update.insert.apply seeds t) held bound [] ps c' ∧
      Gains (Matches seeds held ps) (Matches (Update.insert.apply seeds t) held ps) out := by
  have hseeds' : Binds bound (Update.insert.apply seeds t) := by
    rintro s (hs | rfl)
    · exact hseeds s hs
    · exact ht
  exact push_spec h hseeds hseeds' (apply_seeds_iff (u := .insert) hfresh)

theorem Holds.removeSeed_spec {c : JoinChain} (h : Holds seeds held bound [] ps c)
    (hseeds : Binds bound seeds) {t : Token} (hfresh : seeds t) :
    ∃ out c', c.removeSeed t = .ok (out, c') ∧
      Holds (Update.remove.apply seeds t) held bound [] ps c' ∧
      Gains (Matches (Update.remove.apply seeds t) held ps) (Matches seeds held ps) out := by
  have hseeds' : Binds bound (Update.remove.apply seeds t) := fun s hs => hseeds s hs.1
  exact push_spec h hseeds hseeds' (apply_seeds_iff (u := .remove) hfresh)

theorem Holds.meet_nil_spec {c : JoinChain} (h : Holds seeds held bound [] ps c)
    (hseeds : Binds bound seeds) (u : Update) (q : Quad) :
    ∃ out c', c.meet u q [] = .ok (out, c') ∧ Holds seeds (u.apply held q) bound [] ps c' ∧
      u.Moves (Matches seeds held ps) (Matches seeds (u.apply held q) ps) out := by
  have heq : Matches seeds (u.apply held q) [] = Matches seeds held [] := by
    funext p
    rw [Partial.matches_nil_iff, Partial.matches_nil_iff]
  have hmoves : u.Moves (Matches seeds held []) (Matches seeds (u.apply held q) []) [] := by
    rw [heq]
    exact u.moves_nil _
  exact meet_spec h hseeds hmoves

/-! ## Empty chains -/

private theorem matches_of_no_seeds (held : Quad → Prop) (ps : List Pattern) :
    Matches (fun _ => False) held ps = fun _ => False := by
  funext _
  exact propext ⟨fun h => h.seed, False.elim⟩

private theorem holds_ofPatterns_from {all : OrderedSet Variable}
    (hall : ∀ v, v ∈ all → v ∈ bound ∨ ∃ p ∈ pre, v ∈ p.vars) :
    Holds (fun _ => False) (fun _ => False) bound pre ps (ofPatterns all ps) := by
  induction ps generalizing pre all with
  | nil =>
      refine .done rfl ?_
      rw [matches_of_no_seeds]
      exact PartialMemory.holds_new []
  | cons p ps ih =>
      have hshared : ∀ v ∈ (p.vars.filter all.contains).toList, v ∈ p.vars ∧ v ∈ all := by
        intro v hv
        rw [OrderedSet.mem_toList_iff, OrderedSet.mem_filter] at hv
        exact hv
      have hbefore := PartialMemory.holds_new (p.vars.filter all.contains).toList
      rw [← matches_of_no_seeds (fun _ => False) pre] at hbefore
      refine .stage hbefore (FactMemory.holds_new fun v hv => (hshared v hv).1) rfl
        (fun v hv => hall v (hshared v hv).2) (ih fun v hv => ?_)
      rcases OrderedSet.mem_union.1 hv with hv | hv
      · rcases hall v hv with hv | ⟨r, hr, hv⟩
        · exact Or.inl hv
        · exact Or.inr ⟨r, List.mem_append_left _ hr, hv⟩
      · exact Or.inr ⟨p, List.mem_append_right _ (List.mem_singleton_self p), hv⟩

theorem holds_ofPatterns (bound : OrderedSet Variable) (ps : List Pattern) :
    Holds (fun _ => False) (fun _ => False) bound [] ps (ofPatterns bound ps) :=
  holds_ofPatterns_from fun _ => Or.inl

theorem Holds.fill_spec {contents : Contents} (hindexed : contents.IsIndexed) {c : JoinChain}
    (h : Holds (fun _ => False) (fun _ => False) bound pre ps c) :
    ∃ c', c.fill contents = .ok c' ∧
      Holds (fun _ => False) (fun q => contents.contains q = true) bound pre ps c' := by
  induction h with
  | done hvars hcomplete =>
      rw [matches_of_no_seeds] at hcomplete
      refine ⟨_, rfl, .done hvars ?_⟩
      rw [matches_of_no_seeds]
      exact hcomplete
  | @stage pre ps p before facts rest hbefore hfacts hsame hvars _ ih =>
      rw [matches_of_no_seeds] at hbefore
      obtain ⟨facts', hfill, hvars', hfacts'⟩ := hfacts.fill_spec hindexed
      obtain ⟨rest', hrest, hrest'⟩ := ih
      refine ⟨.stage before facts' rest', ?_, .stage ?_ hfacts' ?_ ?_ hrest'⟩
      · rw [fill, hfill, Result.ok_bind, hrest]
        rfl
      · rw [matches_of_no_seeds]
        exact hbefore
      · rw [hvars', hsame]
      · rw [hvars']
        exact hvars

end JoinChain

end Entail
