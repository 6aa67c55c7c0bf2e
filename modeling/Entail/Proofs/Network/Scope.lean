import Entail.Proofs.Network.Outputs
/-!
# Scope

A condition looks only at quads that one of its patterns can stand for. Neither its outputs nor what
its network remembers depend on any others.
-/

namespace Entail

variable {ev : Evaluator} {held held' : Quad → Prop} {q : Quad} {t : Token}

namespace Pattern

/-- The two sets agree on the quads that the patterns can stand for. -/
def Agree (ps : List Pattern) (held held' : Quad → Prop) : Prop :=
  ∀ q, (∃ p ∈ ps, ∃ b, p.Fits b q) → (held q ↔ held' q)

theorem Agree.symm {ps : List Pattern} (h : Agree ps held held') : Agree ps held' held :=
  fun q hq => (h q hq).symm

theorem Agree.sublist {ps more : List Pattern} (h : Agree ps held held') (hsub : more ⊆ ps) :
    Agree more held held' :=
  fun q ⟨p, hp, hfits⟩ => h q ⟨p, hsub hp, hfits⟩

theorem Agree.held_of_join? {ps : List Pattern} {b m : Bindings} {facts : List Quad}
    (h : Agree ps held held') (hjoin : b.join? ps facts = some m) (hheld : ∀ q ∈ facts, held q) :
    ∀ q ∈ facts, held' q := by
  intro q hq
  obtain ⟨p, hp, hfits⟩ := (Bindings.fitsAll_of_join? hjoin).exists_pattern hq
  exact (h q ⟨p, hp, m, hfits⟩).1 (hheld q hq)

theorem exists_fits_iff {p : Pattern} : (∃ b, p.Fits b q) ↔ (p.match? q).isSome = true := by
  rw [Option.isSome_iff_exists]
  constructor
  · rintro ⟨b, hb⟩
    obtain ⟨m, hm, _⟩ := exists_match?_of_fits hb
    exact ⟨m, hm⟩
  · rintro ⟨m, hm⟩
    exact ⟨m, fits_of_match? hm⟩

instance (p : Pattern) (q : Quad) : Decidable (∃ b, p.Fits b q) :=
  decidable_of_iff _ exists_fits_iff.symm

end Pattern

namespace Condition

variable {c : Condition}

/-- A positive pattern of the condition can stand for the quad. -/
def Reads (c : Condition) (q : Quad) : Prop :=
  ∃ p ∈ c.positives, ∃ b, p.Fits b q

/-- A pattern of a negative conjunction can stand for the quad. -/
def Denies (c : Condition) (q : Quad) : Prop :=
  ∃ conjunction ∈ c.negatives, ∃ p ∈ conjunction, ∃ b, p.Fits b q

instance (c : Condition) (q : Quad) : Decidable (c.Reads q) :=
  inferInstanceAs (Decidable (∃ p ∈ c.positives, ∃ b, p.Fits b q))

instance (c : Condition) (q : Quad) : Decidable (c.Denies q) :=
  inferInstanceAs (Decidable (∃ conjunction ∈ c.negatives, ∃ p ∈ conjunction, ∃ b, p.Fits b q))

/-- No pattern of the condition can stand for one of the quads. -/
def IsApart (c : Condition) (quads : OrderedSet Quad) : Prop :=
  ∀ q ∈ quads, ¬ c.Reads q ∧ ¬ c.Denies q

instance (c : Condition) (quads : OrderedSet Quad) : Decidable (c.IsApart quads) :=
  decidable_of_iff (∀ q ∈ quads.toList, ¬ c.Reads q ∧ ¬ c.Denies q)
    ⟨fun h q hq => h q (OrderedSet.mem_toList_iff.2 hq),
      fun h q hq => h q (OrderedSet.mem_toList_iff.1 hq)⟩

theorem isApart_empty (c : Condition) : c.IsApart ∅ :=
  fun q hq => absurd hq (OrderedSet.not_mem_empty q)

theorem Admits.reads (h : c.Admits held t) : ∀ f ∈ t.facts, c.Reads f := by
  intro f hf
  obtain ⟨p, hp, hfits⟩ := h.fits.exists_pattern hf
  exact ⟨p, hp, t.bindings, hfits⟩

theorem Admits.congr (h : c.Admits held t) (hdenied : ∀ f, c.Denies f → held' f → held f) :
    c.Admits held' t := by
  refine ⟨h.fits, h.binds, fun conjunction hmem => ?_⟩
  rintro ⟨inner, facts, hextends, hheld, hfits⟩
  refine h.unblocked conjunction hmem ⟨inner, facts, hextends, fun f hf => ?_, hfits⟩
  obtain ⟨p, hp, hfit⟩ := hfits.exists_pattern hf
  exact hdenied f ⟨conjunction, hmem, p, hp, inner, hfit⟩ (hheld f hf)

theorem isMatch_congr (hread : ∀ f, c.Reads f → (held f ↔ held' f))
    (hdenied : ∀ f, c.Denies f → (held f ↔ held' f)) : c.IsMatch held = c.IsMatch held' := by
  funext t
  apply propext
  constructor
  · rintro ⟨hheld, hadmits⟩
    refine ⟨fun f hf => ?_, hadmits.congr fun f hf => (hdenied f hf).2⟩
    rw [← hread f (hadmits.reads f hf)]
    exact hheld f hf
  · rintro ⟨hheld, hadmits⟩
    refine ⟨fun f hf => ?_, hadmits.congr fun f hf => (hdenied f hf).1⟩
    rw [hread f (hadmits.reads f hf)]
    exact hheld f hf

theorem facts_of_isRow {a : Aggregation} {found : Token → Prop} (h : a.IsRow ev found t) :
    t.facts = [] := by
  obtain ⟨key, members, _, _, hrow⟩ := h
  obtain ⟨b, _, heq⟩ := Result.bind_eq_ok_iff.1 hrow
  rw [← Except.ok.inj heq]

theorem IsOutput.isHeld (h : c.IsOutput ev held t) : t.IsHeld held := by
  unfold IsOutput at h
  split at h
  · exact h.1
  · intro f hf
    rw [facts_of_isRow h] at hf
    exact absurd hf List.not_mem_nil

theorem IsOutput.reads (h : c.IsOutput ev held t) : ∀ f ∈ t.facts, c.Reads f := by
  unfold IsOutput at h
  split at h
  · exact h.2.reads
  · intro f hf
    rw [facts_of_isRow h] at hf
    exact absurd hf List.not_mem_nil

theorem isOutput_of_none (ha : c.aggregation = none) :
    c.IsOutput ev held t ↔ c.IsMatch held t := by
  rw [IsOutput, ha]

theorem isOutput_of_some {a : Aggregation} (ha : c.aggregation = some a) :
    c.IsOutput ev held t ↔ a.IsRow ev (c.IsMatch held) t := by
  rw [IsOutput, ha]

theorem isOutput_congr (hread : ∀ f, c.Reads f → (held f ↔ held' f))
    (hdenied : ∀ f, c.Denies f → (held f ↔ held' f)) :
    c.IsOutput ev held t ↔ c.IsOutput ev held' t := by
  unfold IsOutput
  rw [isMatch_congr hread hdenied]

end Condition

/-! ## What a network remembers -/

open Pattern (Agree)

variable {pattern : Pattern} {pre ps conjunction : List Pattern} {conjunctions : List (List Pattern)}
  {seeds upstream : Token → Prop} {bound : OrderedSet Variable}

private theorem Partial.matches_congr (h : Agree ps held held') (p : Partial) :
    Partial.Matches seeds held ps p ↔ Partial.Matches seeds held' ps p := by
  constructor
  · rintro ⟨hseed, hheld, hjoin⟩
    exact ⟨hseed, h.held_of_join? hjoin hheld, hjoin⟩
  · rintro ⟨hseed, hheld, hjoin⟩
    exact ⟨hseed, h.symm.held_of_join? hjoin hheld, hjoin⟩

private theorem FactMemory.Holds.of_agree {m : FactMemory} (h : m.Holds pattern held)
    (hagree : Agree [pattern] held held') : m.Holds pattern held' where
  pattern_eq := h.pattern_eq
  keyed := h.keyed
  mem_iff key q b := by
    rw [h.mem_iff]
    refine and_congr_left fun hq => hagree q ⟨pattern, List.mem_singleton_self _, b, ?_⟩
    exact Pattern.fits_of_match? hq.1

private theorem JoinChain.Holds.of_agree {chain : JoinChain}
    (h : JoinChain.Holds seeds held bound pre ps chain) (hagree : Agree (pre ++ ps) held held') :
    JoinChain.Holds seeds held' bound pre ps chain := by
  induction h with
  | done hvars hcomplete =>
      rw [List.append_nil] at hagree
      exact .done hvars (hcomplete.congr (Partial.matches_congr hagree))
  | @stage pre ps p before facts rest hbefore hfacts hsame hvars _ ih =>
      have hpre := hagree.sublist (List.subset_append_left pre (p :: ps))
      have hp : [p] ⊆ pre ++ p :: ps := by simp
      rw [← List.append_cons] at ih
      exact .stage (hbefore.congr (Partial.matches_congr hpre)) (hfacts.of_agree (hagree.sublist hp))
        hsame hvars (ih hagree)

private theorem isBlocked_congr (h : Agree conjunction held held') {b : Bindings} :
    Condition.IsBlocked held b conjunction ↔ Condition.IsBlocked held' b conjunction := by
  rw [Condition.isBlocked_iff_join?, Condition.isBlocked_iff_join?]
  constructor
  · rintro ⟨facts, hheld, m, hjoin⟩
    exact ⟨facts, h.held_of_join? hjoin hheld, m, hjoin⟩
  · rintro ⟨facts, hheld, m, hjoin⟩
    exact ⟨facts, h.symm.held_of_join? hjoin hheld, m, hjoin⟩

private theorem Blocker.Holds.of_agree {k : Blocker} (h : k.Holds bound conjunction upstream held)
    (hagree : Agree conjunction held held') : k.Holds bound conjunction upstream held' where
  chain := h.chain.of_agree hagree
  binds := h.binds
  tallies := h.tallies.congr (Partial.matches_congr hagree)

namespace Network

private theorem Sifts.of_agree {ks : List Blocker} (h : Sifts bound held upstream conjunctions ks)
    (hagree : ∀ conjunction ∈ conjunctions, Agree conjunction held held') :
    Sifts bound held' upstream conjunctions ks := by
  induction h with
  | nil => exact .nil
  | @cons upstream conjunction conjunctions k rest hk _ ih =>
      obtain ⟨hfirst, hrest⟩ := List.forall_mem_cons.1 hagree
      have hpasses : Blocker.Passes upstream held conjunction =
          Blocker.Passes upstream held' conjunction := by
        funext t
        rw [Blocker.Passes, isBlocked_congr hfirst, Blocker.Passes]
      exact .cons (hk.of_agree hfirst) (hpasses ▸ ih hrest)

/-- A network that was told of one set might as well have been told of the other. -/
theorem Tracks.of_agree {n : Network} (h : n.Tracks ev held)
    (hread : ∀ q, n.condition.Reads q → (held q ↔ held' q))
    (hdenied : ∀ q, n.condition.Denies q → (held q ↔ held' q)) : n.Tracks ev held' := by
  have hpositive : Agree n.condition.positives held held' := hread
  have hnegative : ∀ conjunction ∈ n.condition.negatives, Agree conjunction held held' :=
    fun conjunction hmem q hq => hdenied q ⟨conjunction, hmem, hq⟩
  have hfound : n.condition.IsFound held = n.condition.IsFound held' := by
    funext t
    refine propext (and_congr_left fun hjoin => ⟨?_, ?_⟩)
    · exact hpositive.held_of_join? hjoin
    · exact hpositive.symm.held_of_join? hjoin
  refine ⟨h.positive.of_agree hpositive, hfound ▸ h.blockers.of_agree hnegative, ?_, fun t => ?_⟩
  · rw [← Condition.isMatch_congr hread hdenied]
    exact h.grouping
  · rw [h.outputs, Condition.isOutput_congr hread hdenied]

end Network

end Entail
