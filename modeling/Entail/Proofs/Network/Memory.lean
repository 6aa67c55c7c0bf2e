import Entail.Network.Join
import Entail.Proofs.Network.Delta
import Entail.Proofs.Pattern.Join
import Entail.Proofs.Store.Contents
/-!
# Memories

What the memories of a stage hold: every element of a set, filed under its own join key. A memory
learns of an element that enters or leaves the set and then holds the new set; probing it with a key
finds whatever could be joined.
-/

namespace Entail

variable {u : Update}

/-! ## Partial matches -/

namespace Partial

variable {seeds : Token → Prop} {held : Quad → Prop} {ps : List Pattern} {p r child : Partial}

/-- `child` is `r` with `q` as the fact of one more pattern. -/
def IsExtension (pattern : Pattern) (q : Quad) (r child : Partial) : Prop :=
  ∃ found, pattern.match? q = some found ∧ r.extend? (q, found) = some child

theorem extend?_eq_some_iff {q : Quad} {found : Bindings} :
    r.extend? (q, found) = some child ↔
      child.seed = r.seed ∧ child.facts = r.facts ++ [q] ∧
        r.bindings.merge? found = some child.bindings := by
  simp only [extend?, Option.map_eq_some_iff]
  constructor
  · rintro ⟨b, hb, rfl⟩
    exact ⟨rfl, rfl, hb⟩
  · rintro ⟨hseed, hfacts, hb⟩
    refine ⟨child.bindings, hb, ?_⟩
    rw [← hseed, ← hfacts]

/-- The bindings of `p` are those of its seed joined with the patterns over its facts. -/
def Joins (p : Partial) (ps : List Pattern) : Prop :=
  p.seed.bindings.join? ps p.facts = some p.bindings

theorem Joins.eq (hp : p.Joins ps) (hr : r.Joins ps) (hseed : p.seed = r.seed)
    (hfacts : p.facts = r.facts) : p = r := by
  have hjoin : some p.bindings = some r.bindings := by
    rw [← hp, ← hr, hseed, hfacts]
  cases p
  cases r
  simp_all

theorem IsExtension.parent_eq {pattern : Pattern} {q q' : Quad} {r' : Partial} (hr : r.Joins ps)
    (hr' : r'.Joins ps) (h : IsExtension pattern q r child) (h' : IsExtension pattern q' r' child) :
    r = r' ∧ q = q' := by
  obtain ⟨_, _, h⟩ := h
  obtain ⟨_, _, h'⟩ := h'
  obtain ⟨hs, hfacts, _⟩ := extend?_eq_some_iff.1 h
  obtain ⟨hs', hfacts', _⟩ := extend?_eq_some_iff.1 h'
  have heq := List.append_inj' (hfacts.symm.trans hfacts') rfl
  have hq : [q] = [q'] := heq.2
  exact ⟨hr.eq hr' (hs.symm.trans hs') heq.1, List.singleton_inj.1 hq⟩

/-- `p` extends a seed by a held quad for each of the patterns. -/
structure Matches (seeds : Token → Prop) (held : Quad → Prop) (ps : List Pattern) (p : Partial) :
    Prop where
  seed : seeds p.seed
  held : ∀ q ∈ p.facts, held q
  join : p.Joins ps

theorem matches_nil_iff : Matches seeds held [] p ↔ seeds p.seed ∧ p = ofSeed p.seed := by
  constructor
  · rintro ⟨hseed, hheld, hjoin⟩
    refine ⟨hseed, ?_⟩
    obtain ⟨t, b, facts⟩ := p
    cases facts with
    | nil =>
        have hb : t.bindings = b := Option.some_inj.1 hjoin
        rw [← hb]
        rfl
    | cons q qs => cases hjoin
  · rintro ⟨hseed, hp⟩
    have hfacts : p.facts = [] := by rw [hp, ofSeed]
    have hbindings : p.bindings = p.seed.bindings := congrArg Partial.bindings hp
    refine ⟨hseed, fun q hq => ?_, ?_⟩
    · rw [hfacts] at hq
      exact absurd hq List.not_mem_nil
    · rw [Joins, hfacts, hbindings, Bindings.join?]

theorem matches_concat_iff {pattern : Pattern} :
    Matches seeds held (ps ++ [pattern]) child ↔
      ∃ r q, Matches seeds held ps r ∧ held q ∧ IsExtension pattern q r child := by
  constructor
  · rintro ⟨hseed, hheld, hjoin⟩
    obtain ⟨qs, q, b, found, hfacts, hj, hf, hm⟩ := Bindings.join?_concat_eq_some_iff.1 hjoin
    have hq : held q := hheld q (by simp [hfacts])
    have hqs : ∀ x ∈ qs, held x := fun x hx => hheld x (by simp [hfacts, hx])
    exact ⟨⟨child.seed, b, qs⟩, q, ⟨hseed, hqs, hj⟩, hq, found, hf,
      extend?_eq_some_iff.2 ⟨rfl, hfacts, hm⟩⟩
  · rintro ⟨r, q, ⟨hseed, hheld, hjoin⟩, hq, found, hf, hext⟩
    obtain ⟨hs, hfacts, hm⟩ := extend?_eq_some_iff.1 hext
    refine ⟨hs ▸ hseed, ?_, ?_⟩
    · intro x hx
      rw [hfacts, List.mem_append, List.mem_singleton] at hx
      rcases hx with hx | rfl
      · exact hheld x hx
      · exact hq
    · rw [Joins, hs]
      exact Bindings.join?_concat_eq_some_iff.2
        ⟨r.facts, q, r.bindings, found, hfacts, hjoin, hf, hm⟩

end Partial

namespace PartialMemory

variable {m : PartialMemory} {S old next : Partial → Prop}

/-- The join key of a match in a memory. -/
def IsKey (m : PartialMemory) (p : Partial) (key : List Node) : Prop :=
  p.bindings.joinKey m.keyVariables = .ok key

/-- The memory holds the matches that satisfy `S`, each under its own key. -/
structure Holds (m : PartialMemory) (S : Partial → Prop) : Prop where
  keyed : ∀ p, S p → ∃ key, m.IsKey p key
  mem_iff : ∀ key p, p ∈ m.partials.bucket key ↔ S p ∧ m.IsKey p key

theorem Holds.congr (h : m.Holds old) (hiff : ∀ p, old p ↔ next p) : m.Holds next := by
  obtain rfl : old = next := by
    funext p
    exact propext (hiff p)
  exact h

theorem Holds.mem_toList_iff (h : m.Holds S) {p : Partial} : p ∈ m.toList ↔ S p := by
  rw [toList, Index.mem_toList_iff]
  simp only [h.mem_iff]
  constructor
  · rintro ⟨key, hp, _⟩
    exact hp
  · intro hp
    obtain ⟨key, hkey⟩ := h.keyed p hp
    exact ⟨key, hp, hkey⟩

theorem holds_new (vars : List Variable) : (new vars).Holds fun _ => False where
  keyed := nofun
  mem_iff key p := by
    exact iff_of_false Index.not_mem_bucket_empty fun h => h.1

theorem Holds.contains_iff (h : m.Holds S) {p : Partial} {key : List Node} (hkey : m.IsKey p key) :
    m.partials.contains key p = true ↔ S p :=
  (h.mem_iff key p).trans (and_iff_left hkey)

private theorem update_of_isFresh (h : m.Holds S) {p : Partial} {key : List Node}
    (hkey : m.IsKey p key) (hfresh : u.IsFresh S p) :
    ∃ m', update u m p = .ok ([p], m') ∧ m'.keyVariables = m.keyVariables ∧
      m'.Holds (u.apply S p) := by
  have hkeys : ∀ k, m.IsKey p k ↔ key = k := fun k => by
    unfold IsKey at hkey ⊢
    rw [hkey, Except.ok.injEq]
  have hcontains := h.contains_iff hkey
  unfold update
  rw [show p.bindings.joinKey m.keyVariables = .ok key from hkey, Result.ok_bind]
  cases u with
  | insert =>
      have hnot : m.partials.contains key p = false := by
        rw [← Bool.not_eq_true, hcontains]
        exact hfresh
      rw [hnot]
      refine ⟨_, rfl, rfl, ?_, ?_⟩
      · rintro q (hq | rfl)
        · exact h.keyed q hq
        · exact ⟨key, hkey⟩
      · intro k q
        rw [Index.mem_bucket_insert, h.mem_iff k q]
        constructor
        · rintro (⟨hq, hk⟩ | ⟨rfl, rfl⟩)
          · exact ⟨Or.inl hq, hk⟩
          · exact ⟨Or.inr rfl, hkey⟩
        · rintro ⟨hq | rfl, hk⟩
          · exact Or.inl ⟨hq, hk⟩
          · exact Or.inr ⟨(hkeys k).1 hk, rfl⟩
  | remove =>
      have hmem : m.partials.contains key p = true := hcontains.2 hfresh
      rw [hmem]
      refine ⟨_, rfl, rfl, ?_, ?_⟩
      · rintro q ⟨hq, _⟩
        exact h.keyed q hq
      · intro k q
        rw [Index.mem_bucket_erase, h.mem_iff k q]
        constructor
        · rintro ⟨⟨hq, hk⟩, hne⟩
          refine ⟨⟨hq, ?_⟩, hk⟩
          rintro rfl
          exact hne ⟨(hkeys k).1 hk, rfl⟩
        · rintro ⟨⟨hq, hne⟩, hk⟩
          exact ⟨⟨hq, hk⟩, fun heq => hne heq.2⟩

theorem Holds.runStage_update (h : m.Holds old) {ps : List Partial} (hmoves : u.Moves old next ps)
    (hkeyed : ∀ p, old p ∨ next p → ∃ key, m.IsKey p key) :
    ∃ m', runStage (update u) m ps = .ok (ps, m') ∧ m'.keyVariables = m.keyVariables ∧
      m'.Holds next := by
  induction ps generalizing m old with
  | nil => exact ⟨m, rfl, rfl, h.congr hmoves.iff_of_nil⟩
  | cons p rest ih =>
      obtain ⟨hfresh, hrest⟩ := hmoves.cons
      obtain ⟨key, hkey⟩ := hkeyed p (hmoves.of_mem List.mem_cons_self)
      obtain ⟨m₁, h₁, hvars, hm₁⟩ := update_of_isFresh h hkey hfresh
      have hkeyed₁ : ∀ r, u.apply old p r ∨ next r → ∃ k, m₁.IsKey r k := by
        intro r hr
        have hor : old r ∨ r = p ∨ next r := by
          cases u with
          | insert => exact or_assoc.1 hr
          | remove => exact hr.elim (fun hr => Or.inl hr.1) fun hr => Or.inr (Or.inr hr)
        unfold IsKey
        rw [hvars]
        rcases hor with hr | rfl | hr
        · exact hkeyed r (Or.inl hr)
        · exact ⟨key, hkey⟩
        · exact hkeyed r (Or.inr hr)
      obtain ⟨m₂, h₂, hvars₂, hm₂⟩ := ih hm₁ hrest hkeyed₁
      refine ⟨m₂, ?_, hvars₂.trans hvars, hm₂⟩
      exact runStage_cons h₁ h₂

end PartialMemory

namespace FactMemory

variable {m : FactMemory} {pattern : Pattern} {held : Quad → Prop}

/-- The memory holds the quads that satisfy `held` and match the pattern, with their bindings, each
under its own key. -/
structure Holds (m : FactMemory) (pattern : Pattern) (held : Quad → Prop) : Prop where
  pattern_eq : m.pattern = pattern
  keyed : ∀ v ∈ m.keyVariables, v ∈ pattern.vars
  mem_iff : ∀ key q b, (q, b) ∈ m.facts.bucket key ↔
    held q ∧ pattern.match? q = some b ∧ b.joinKey m.keyVariables = .ok key

theorem Holds.congr {held' : Quad → Prop} (h : m.Holds pattern held)
    (hiff : ∀ q, held q ↔ held' q) : m.Holds pattern held' := by
  obtain rfl : held = held' := by
    funext q
    exact propext (hiff q)
  exact h

theorem holds_new {vars : List Variable} (h : ∀ v ∈ vars, v ∈ pattern.vars) :
    (new pattern vars).Holds pattern fun _ => False where
  pattern_eq := rfl
  keyed := h
  mem_iff key q b := by
    exact iff_of_false Index.not_mem_bucket_empty fun h => h.1

theorem Holds.exists_key (h : m.Holds pattern held) {q : Quad} {b : Bindings}
    (hb : pattern.match? q = some b) : ∃ key, b.joinKey m.keyVariables = .ok key := by
  rw [Bindings.exists_joinKey_iff]
  intro v hv
  exact (Pattern.contains_iff_of_match? hb).2 (h.keyed v hv)

private theorem Holds.of_unmatched (h : m.Holds pattern held) {q : Quad}
    (hnone : pattern.match? q = none) (u : Update) : m.Holds pattern (u.apply held q) where
  pattern_eq := h.pattern_eq
  keyed := h.keyed
  mem_iff key r b := by
    rw [h.mem_iff]
    refine and_congr_left fun hr => ?_
    have hne : r ≠ q := by
      rintro rfl
      rw [hnone] at hr
      cases hr.1
    exact (Update.apply_iff_of_ne hne).symm

private theorem Holds.of_stale (h : m.Holds pattern held) {q : Quad} {u : Update}
    (hstale : ¬ u.IsFresh held q) : m.Holds pattern (u.apply held q) :=
  h.congr fun r => (Update.apply_iff_of_not_isFresh hstale r).symm

private theorem eq_iff_filed {q r : Quad} {found b : Bindings} {key k : List Node}
    (hq : pattern.match? q = some found) (hkey : found.joinKey m.keyVariables = .ok key)
    (hr : pattern.match? r = some b) (hk : b.joinKey m.keyVariables = .ok k) :
    r = q ↔ key = k ∧ (r, b) = (q, found) := by
  constructor
  · rintro rfl
    rw [hq, Option.some_inj] at hr
    subst hr
    rw [hkey, Except.ok.injEq] at hk
    exact ⟨hk, rfl⟩
  · rintro ⟨_, heq⟩
    exact congrArg Prod.fst heq

private theorem Holds.insert_fact (h : m.Holds pattern held) {q : Quad} {found : Bindings}
    {key : List Node} (hq : pattern.match? q = some found)
    (hkey : found.joinKey m.keyVariables = .ok key) :
    ({ m with facts := m.facts.insert key (q, found) } : FactMemory).Holds pattern
      (Update.insert.apply held q) where
  pattern_eq := h.pattern_eq
  keyed := h.keyed
  mem_iff k r b := by
    rw [Index.mem_bucket_insert, h.mem_iff]
    constructor
    · rintro (⟨hr, hmatch⟩ | ⟨rfl, heq⟩)
      · exact ⟨Or.inl hr, hmatch⟩
      · obtain ⟨rfl, rfl⟩ := Prod.mk.inj heq
        exact ⟨Or.inr rfl, hq, hkey⟩
    · rintro ⟨hr | hr, hmatch, hk⟩
      · exact Or.inl ⟨hr, hmatch, hk⟩
      · exact Or.inr ((eq_iff_filed hq hkey hmatch hk).1 hr)

private theorem Holds.erase_fact (h : m.Holds pattern held) {q : Quad} {found : Bindings}
    {key : List Node} (hq : pattern.match? q = some found)
    (hkey : found.joinKey m.keyVariables = .ok key) :
    ({ m with facts := m.facts.erase key (q, found) } : FactMemory).Holds pattern
      (Update.remove.apply held q) where
  pattern_eq := h.pattern_eq
  keyed := h.keyed
  mem_iff k r b := by
    rw [Index.mem_bucket_erase, h.mem_iff]
    constructor
    · rintro ⟨⟨hr, hmatch, hk⟩, hnot⟩
      exact ⟨⟨hr, fun heq => hnot ((eq_iff_filed hq hkey hmatch hk).1 heq)⟩, hmatch, hk⟩
    · rintro ⟨⟨hr, hne⟩, hmatch, hk⟩
      exact ⟨⟨hr, hmatch, hk⟩, fun heq => hne ((eq_iff_filed hq hkey hmatch hk).2 heq)⟩

theorem Holds.update_spec (h : m.Holds pattern held) (u : Update) (q : Quad) :
    ∃ met m', m.update u q = .ok (met, m') ∧ m'.keyVariables = m.keyVariables ∧
      m'.Holds pattern (u.apply held q) ∧
      ∀ b, met = some b ↔ pattern.match? q = some b ∧ u.IsFresh held q := by
  unfold update
  rw [h.pattern_eq]
  cases hq : pattern.match? q with
  | none => exact ⟨none, m, rfl, rfl, h.of_unmatched hq u, by simp⟩
  | some found =>
      obtain ⟨key, hkey⟩ := h.exists_key hq
      have hcontains : m.facts.contains key (q, found) = true ↔ held q :=
        (h.mem_iff key q found).trans (and_iff_left ⟨hq, hkey⟩)
      have hstale : ∀ u : Update, ¬ u.IsFresh held q →
          ∀ b, (none : Option Bindings) = some b ↔ some found = some b ∧ u.IsFresh held q :=
        fun u hu b => iff_of_false nofun fun hb => hu hb.2
      have hfresh : ∀ u : Update, u.IsFresh held q →
          ∀ b, some found = some b ↔ some found = some b ∧ u.IsFresh held q :=
        fun u hu b => (and_iff_left hu).symm
      have hpattern := h.pattern_eq
      subst hpattern
      simp only [hkey, Result.ok_bind]
      by_cases hheld : held q
      · rw [hcontains.2 hheld]
        cases u with
        | insert =>
            have hu : ¬ Update.insert.IsFresh held q := fun hu => hu hheld
            exact ⟨none, m, rfl, rfl, h.of_stale hu, hstale .insert hu⟩
        | remove =>
            exact ⟨some found, _, rfl, rfl, h.erase_fact hq hkey, hfresh .remove hheld⟩
      · have hfalse : m.facts.contains key (q, found) = false := by
          rw [← Bool.not_eq_true, hcontains]
          exact hheld
        rw [hfalse]
        cases u with
        | insert =>
            exact ⟨some found, _, rfl, rfl, h.insert_fact hq hkey, hfresh .insert hheld⟩
        | remove =>
            exact ⟨none, m, rfl, rfl, h.of_stale hheld, hstale .remove hheld⟩

theorem Holds.insertAll_spec (h : m.Holds pattern held) (qs : List Quad) :
    ∃ m', m.insertAll qs = .ok m' ∧ m'.keyVariables = m.keyVariables ∧
      m'.Holds pattern fun q => held q ∨ q ∈ qs := by
  induction qs generalizing m held with
  | nil => exact ⟨m, rfl, rfl, h.congr fun q => by simp⟩
  | cons q rest ih =>
      obtain ⟨met, m₁, h₁, hvars, hm₁, _⟩ := h.update_spec .insert q
      obtain ⟨m₂, h₂, hvars₂, hm₂⟩ := ih hm₁
      refine ⟨m₂, ?_, hvars₂.trans hvars, hm₂.congr fun r => ?_⟩
      · rw [insertAll, h₁, Result.ok_bind]
        exact h₂
      · simp [Update.apply, or_assoc]

/-- What was not told of is not in a new memory, and what does not pass the filter of the pattern does
not match it. -/
theorem Holds.fill_spec (h : m.Holds pattern fun _ => False) {c : Contents} (hc : c.IsIndexed) :
    ∃ m', m.fill c = .ok m' ∧ m'.keyVariables = m.keyVariables ∧
      m'.Holds pattern fun q => c.contains q = true := by
  obtain ⟨m', hfill, hvars, hm'⟩ := h.insertAll_spec (c.lookup m.pattern.filter)
  refine ⟨m', hfill, hvars, hm'.pattern_eq, hm'.keyed, fun key q b => ?_⟩
  rw [hm'.mem_iff]
  refine and_congr_left fun hb => ?_
  have hpasses := Pattern.passes_filter_of_match? hb.1
  rw [false_or, hc.mem_lookup_iff, h.pattern_eq, and_iff_left hpasses]

end FactMemory

/-! ## Probing -/

variable {seeds : Token → Prop} {held : Quad → Prop} {ps : List Pattern} {pattern : Pattern}

theorem Partial.joinKey_eq_of_extend? {vars : List Variable} {r child : Partial} {q : Quad}
    {found : Bindings} {key key' : List Node} (h : r.extend? (q, found) = some child)
    (hr : r.bindings.joinKey vars = .ok key) (hf : found.joinKey vars = .ok key') : key = key' := by
  have hunion := Bindings.isUnion_of_merge? (extend?_eq_some_iff.1 h).2.2
  have h₁ := hunion.extends_left.joinKey_eq hr
  have h₂ := hunion.extends_right.joinKey_eq hf
  rw [h₁, Except.ok.injEq] at h₂
  exact h₂

theorem FactMemory.mem_extensions {m : FactMemory} (h : m.Holds pattern held) {r : Partial}
    {key : List Node} (hkey : r.bindings.joinKey m.keyVariables = .ok key) {child : Partial} :
    child ∈ (m.under key).filterMap r.extend? ↔ ∃ q, held q ∧ r.IsExtension pattern q child := by
  rw [List.mem_filterMap]
  constructor
  · rintro ⟨⟨q, found⟩, hmem, hext⟩
    obtain ⟨hq, hf, _⟩ := (h.mem_iff key q found).1 (OrderedSet.mem_toList_iff.1 hmem)
    exact ⟨q, hq, found, hf, hext⟩
  · rintro ⟨q, hq, found, hf, hext⟩
    obtain ⟨key', hkey'⟩ := h.exists_key hf
    have heq := Partial.joinKey_eq_of_extend? hext hkey hkey'
    refine ⟨(q, found), OrderedSet.mem_toList_iff.2 ?_, hext⟩
    exact (h.mem_iff key q found).2 ⟨hq, hf, heq ▸ hkey'⟩

theorem FactMemory.nodup_extensions {m : FactMemory} (h : m.Holds pattern held) (r : Partial)
    (key : List Node) : ((m.under key).filterMap r.extend?).Nodup := by
  rw [List.Nodup, List.pairwise_filterMap]
  refine List.Pairwise.imp_of_mem ?_ (OrderedSet.nodup_toList (m.facts.bucket key))
  rintro ⟨q, b⟩ ⟨q', b'⟩ hmem hmem' hne child hc child' hc' rfl
  obtain ⟨_, hb, _⟩ := (h.mem_iff key q b).1 (OrderedSet.mem_toList_iff.1 hmem)
  obtain ⟨_, hb', _⟩ := (h.mem_iff key q' b').1 (OrderedSet.mem_toList_iff.1 hmem')
  have hfacts := (Partial.extend?_eq_some_iff.1 hc).2.1
  have hfacts' := (Partial.extend?_eq_some_iff.1 hc').2.1
  have hq : [q] = [q'] := (List.append_inj' (hfacts.symm.trans hfacts') rfl).2
  obtain rfl := List.singleton_inj.1 hq
  rw [hb, Option.some_inj] at hb'
  exact hne (Prod.ext rfl hb')

theorem FactMemory.Holds.extendAll_spec {m : FactMemory} (h : m.Holds pattern held) {rs : List Partial}
    (hnodup : rs.Nodup) (hjoins : ∀ r ∈ rs, r.Joins ps)
    (hkeyed : ∀ r ∈ rs, ∃ key, r.bindings.joinKey m.keyVariables = .ok key) :
    ∃ out, m.extendAll rs = .ok out ∧ out.Nodup ∧
      ∀ child, child ∈ out ↔ ∃ r ∈ rs, ∃ q, held q ∧ Partial.IsExtension pattern q r child := by
  induction rs with
  | nil => exact ⟨[], rfl, List.nodup_nil, by simp⟩
  | cons r rest ih =>
      rw [List.nodup_cons] at hnodup
      rw [List.forall_mem_cons] at hjoins hkeyed
      obtain ⟨key, hkey⟩ := hkeyed.1
      obtain ⟨out, hout, hnd, hmem⟩ := ih hnodup.2 hjoins.2 hkeyed.2
      refine ⟨(m.under key).filterMap r.extend? ++ out, ?_, ?_, fun child => ?_⟩
      · rw [extendAll, hkey, Result.ok_bind, hout, Result.ok_bind]
        rfl
      · rw [List.nodup_append']
        refine ⟨nodup_extensions h r key, hnd, fun child hc hc' => ?_⟩
        obtain ⟨q, _, hext⟩ := (mem_extensions h hkey).1 hc
        obtain ⟨r', hr', q', _, hext'⟩ := (hmem child).1 hc'
        have heq := (hext.parent_eq hjoins.1 (hjoins.2 r' hr') hext').1
        exact hnodup.1 (heq ▸ hr')
      · rw [List.mem_append, mem_extensions h hkey, hmem child]
        simp

theorem PartialMemory.Holds.extendBy_spec {m : PartialMemory} {S : Partial → Prop} (h : m.Holds S)
    (hjoins : ∀ r, S r → r.Joins ps) {q : Quad} {met : Option Bindings} {fresh : Prop}
    (hmet : ∀ b, met = some b ↔ pattern.match? q = some b ∧ fresh)
    (hkeyed : ∀ v ∈ m.keyVariables, v ∈ pattern.vars) :
    ∃ out, m.extendBy q met = .ok out ∧ out.Nodup ∧
      ∀ child, child ∈ out ↔ ∃ r, S r ∧ fresh ∧ Partial.IsExtension pattern q r child := by
  cases met with
  | none =>
      refine ⟨[], rfl, List.nodup_nil, fun child => ?_⟩
      simp only [List.not_mem_nil, false_iff, not_exists]
      rintro r ⟨_, hfresh, b, hb, _⟩
      cases (hmet b).2 ⟨hb, hfresh⟩
  | some b =>
      obtain ⟨hb, hfresh⟩ := (hmet b).1 rfl
      have hkey : ∃ key, b.joinKey m.keyVariables = .ok key := by
        rw [Bindings.exists_joinKey_iff]
        exact fun v hv => (Pattern.contains_iff_of_match? hb).2 (hkeyed v hv)
      obtain ⟨key, hkey⟩ := hkey
      refine ⟨_, by rw [extendBy, hkey]; rfl, ?_, fun child => ?_⟩
      · rw [List.Nodup, List.pairwise_filterMap]
        refine List.Pairwise.imp_of_mem ?_ (OrderedSet.nodup_toList (m.partials.bucket key))
        rintro r r' hmem hmem' hne child hc child' hc' rfl
        have hr := ((h.mem_iff key r).1 (OrderedSet.mem_toList_iff.1 hmem)).1
        have hr' := ((h.mem_iff key r').1 (OrderedSet.mem_toList_iff.1 hmem')).1
        have hext : Partial.IsExtension pattern q r child := ⟨b, hb, hc⟩
        exact hne (hext.parent_eq (hjoins r hr) (hjoins r' hr') ⟨b, hb, hc'⟩).1
      · rw [List.mem_filterMap]
        constructor
        · rintro ⟨r, hmem, hext⟩
          have hr := ((h.mem_iff key r).1 (OrderedSet.mem_toList_iff.1 hmem)).1
          exact ⟨r, hr, hfresh, b, hb, hext⟩
        · rintro ⟨r, hr, _, b', hb', hext⟩
          rw [hb, Option.some_inj] at hb'
          subst hb'
          obtain ⟨key', hkey'⟩ := h.keyed r hr
          have heq := Partial.joinKey_eq_of_extend? hext hkey' hkey
          refine ⟨r, OrderedSet.mem_toList_iff.2 ((h.mem_iff key r).2 ⟨hr, ?_⟩), hext⟩
          exact heq ▸ hkey'

end Entail
