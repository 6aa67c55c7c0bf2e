import Entail.Proofs.Network.Scope
import Entail.Proofs.Rules.Firings
/-!
# Founded sets

A set of quads that holds whatever the rules conclude over it, and nothing without a finite derivation
over it, is the model of the rules: the least one for positive rules, the one in levels for stratified
rules.
-/

namespace Entail

variable {ev : Evaluator} {graph : Node} {rules : List Rule} {level : Rule → Nat}
  {stored held held' : Quad → Prop} {q : Quad} {t : Token} {n m : Nat}

/-- The quads with a finite derivation in which every step is an output over `stored`. -/
inductive Founded (ev : Evaluator) (graph : Node) (rules : List Rule) (stored : Quad → Prop) :
    Quad → Prop where
  | base {q : Quad} : stored q → q.graph ≠ graph → Founded ev graph rules stored q
  | byOutput {r : Rule} {t : Token} {q : Quad} :
    r ∈ rules → r.condition.IsOutput ev stored t →
    (∀ f ∈ t.facts, Founded ev graph rules stored f) → r.Concludes ev graph t q →
    Founded ev graph rules stored q

/-- The stored quads that are not conclusions. -/
def IsBase (graph : Node) (stored : Quad → Prop) (q : Quad) : Prop :=
  stored q ∧ q.graph ≠ graph

theorem isBase_congr (h : ∀ q, q.graph ≠ graph → (held' q ↔ held q)) :
    IsBase graph held = IsBase graph held' := by
  funext q
  apply propext
  constructor
  · rintro ⟨hq, hgraph⟩
    exact ⟨(h q hgraph).2 hq, hgraph⟩
  · rintro ⟨hq, hgraph⟩
    exact ⟨(h q hgraph).1 hq, hgraph⟩

/-- `stored` holds whatever is concluded over it. -/
def HoldsConclusions (ev : Evaluator) (graph : Node) (rules : List Rule) (stored : Quad → Prop) :
    Prop :=
  ∀ r ∈ rules, ∀ t q, r.condition.IsOutput ev stored t → r.Concludes ev graph t q → stored q

/-! ## Positive rules -/

theorem Rule.IsPositive.admits {r : Rule} (h : r.IsPositive)
    (hadmits : r.condition.Admits held t) : r.condition.Admits held' t := by
  refine ⟨hadmits.fits, hadmits.binds, fun conjunction hmem => ?_⟩
  rw [h.1] at hmem
  exact absurd hmem List.not_mem_nil

section Positive

variable (hpos : ∀ r ∈ rules, r.IsPositive)

include hpos

theorem HoldsConclusions.of_derivable (hclosed : HoldsConclusions ev graph rules stored)
    (hq : Derivable ev graph rules (IsBase graph stored) q) : stored q := by
  refine IsClosed.of_derivable ⟨fun q hq => hq.1, fun r hr ha t hheld hadmits q hq => ?_,
    fun r hr a ha => ?_⟩ hq
  · refine hclosed r hr t q ?_ hq
    rw [Condition.isOutput_of_none ha]
    exact ⟨hheld, (hpos r hr).admits hadmits⟩
  · rw [(hpos r hr).2] at ha
    cases ha

theorem Founded.derivable (hq : Founded ev graph rules stored q) :
    Derivable ev graph rules (IsBase graph stored) q := by
  induction hq with
  | base hs hg => exact .settled ⟨hs, hg⟩
  | @byOutput r t q hr hout _ hc ih =>
      rw [Condition.isOutput_of_none (hpos r hr).2] at hout
      exact .byMatch hr (hpos r hr).2 ih ((hpos r hr).admits hout.2) hc

theorem HoldsConclusions.founded (hclosed : HoldsConclusions ev graph rules stored)
    (hq : Derivable ev graph rules (IsBase graph stored) q) : Founded ev graph rules stored q := by
  induction hq with
  | settled hs => exact .base hs.1 hs.2
  | @byMatch r t q hr ha hfacts hadmits hc ih =>
      refine .byOutput hr ?_ ih hc
      rw [Condition.isOutput_of_none ha]
      exact ⟨fun f hf => hclosed.of_derivable hpos (hfacts f hf), (hpos r hr).admits hadmits⟩
  | byRow hr ha =>
      rw [(hpos _ hr).2] at ha
      cases ha

/-- For positive rules a founded set is the least model over its base. -/
theorem derivable_iff_stored (hclosed : HoldsConclusions ev graph rules stored)
    (hfounded : ∀ q, stored q → Founded ev graph rules stored q) :
    Derivable ev graph rules (IsBase graph stored) q ↔ stored q :=
  ⟨hclosed.of_derivable hpos, fun hq => (hfounded q hq).derivable hpos⟩

end Positive

/-! ## Strata -/

/-- Only rules below level `n` conclude the quad. -/
def IsBelow (ev : Evaluator) (graph : Node) (rules : List Rule) (level : Rule → Nat) (n : Nat)
    (q : Quad) : Prop :=
  ∀ s ∈ rules, ∀ t, s.Concludes ev graph t q → level s < n

section Strata

variable {r : Rule} {base : Quad → Prop}

theorem IsStratified.isBelow_of_reads (h : IsStratified ev graph rules level) (hr : r ∈ rules)
    (hq : r.condition.Reads q) : IsBelow ev graph rules level (level r + 1) q := by
  intro s hs t hc
  obtain ⟨p, hp, b, hfits⟩ := hq
  have := (h.positive r hr s hs p hp ⟨t, q, b, hc, hfits⟩).1
  omega

theorem IsStratified.isBelow_of_aggregates (h : IsStratified ev graph rules level) (hr : r ∈ rules)
    {a : Aggregation} (ha : r.condition.aggregation = some a) (hq : r.condition.Reads q) :
    IsBelow ev graph rules level (level r) q := by
  intro s hs t hc
  obtain ⟨p, hp, b, hfits⟩ := hq
  exact (h.positive r hr s hs p hp ⟨t, q, b, hc, hfits⟩).2 (by rw [ha]; exact nofun)

theorem IsStratified.isBelow_of_denies (h : IsStratified ev graph rules level) (hr : r ∈ rules)
    (hq : r.condition.Denies q) : IsBelow ev graph rules level (level r) q := by
  intro s hs t hc
  obtain ⟨conjunction, hmem, p, hp, b, hfits⟩ := hq
  exact h.negative r hr s hs conjunction hmem p hp ⟨t, q, b, hc, hfits⟩

theorem Stratum.succ (h : Stratum ev graph rules level base n q) :
    Stratum ev graph rules level base (n + 1) q :=
  .settled h

theorem Stratum.mono (h : Stratum ev graph rules level base n q) (hle : n ≤ m) :
    Stratum ev graph rules level base m q := by
  induction hle with
  | refl => exact h
  | step _ ih => exact ih.succ

/-- Higher strata add nothing that only rules below conclude. -/
theorem Stratum.of_isBelow (h : Stratum ev graph rules level base m q)
    (hbelow : IsBelow ev graph rules level n q) : Stratum ev graph rules level base n q := by
  induction m with
  | zero => exact Stratum.mono h (Nat.zero_le n)
  | succ m ih =>
      by_cases hle : m + 1 ≤ n
      · exact h.mono hle
      · have hnot : ∀ s ∈ rules.filter fun r => level r = m, ∀ t,
            ¬ s.Concludes ev graph t q := by
          intro s hs t hc
          obtain ⟨hs, hlevel⟩ := List.mem_filter.1 hs
          have hlt := hbelow s hs t hc
          have heq : level s = m := of_decide_eq_true hlevel
          omega
        cases h with
        | settled h => exact ih h
        | byMatch hr _ _ _ hc => exact absurd hc (hnot _ hr _)
        | byRow hr _ _ hc => exact absurd hc (hnot _ hr _)

/-- `stored` agrees with the stratum at `n` on what only rules below conclude. -/
def AgreesAt (ev : Evaluator) (graph : Node) (rules : List Rule) (level : Rule → Nat)
    (stored : Quad → Prop) (n : Nat) : Prop :=
  ∀ q, IsBelow ev graph rules level n q →
    (stored q ↔ Stratum ev graph rules level (IsBase graph stored) n q)

/-- Rules of a level see what is absent, and what they sum up, in the stratum as in `stored`. -/
theorem AgreesAt.admits_iff (h : AgreesAt ev graph rules level stored (level r))
    (hstrat : IsStratified ev graph rules level) (hr : r ∈ rules) :
    r.condition.Admits (Stratum ev graph rules level (IsBase graph stored) (level r)) t ↔
      r.condition.Admits stored t := by
  have hdenied := fun f (hf : r.condition.Denies f) => h f (hstrat.isBelow_of_denies hr hf)
  constructor
  · exact fun hadmits => hadmits.congr fun f hf => (hdenied f hf).1
  · exact fun hadmits => hadmits.congr fun f hf => (hdenied f hf).2

theorem AgreesAt.isMatch_eq (h : AgreesAt ev graph rules level stored (level r))
    (hstrat : IsStratified ev graph rules level) (hr : r ∈ rules) {a : Aggregation}
    (ha : r.condition.aggregation = some a) :
    r.condition.IsMatch (Stratum ev graph rules level (IsBase graph stored) (level r)) =
      r.condition.IsMatch stored :=
  Condition.isMatch_congr
    (fun f hf => (h f (hstrat.isBelow_of_aggregates hr ha hf)).symm)
    fun f hf => (h f (hstrat.isBelow_of_denies hr hf)).symm

private theorem stratum_of_output (h : AgreesAt ev graph rules level stored (level r))
    (hstrat : IsStratified ev graph rules level) (hr : r ∈ rules)
    (hout : r.condition.IsOutput ev stored t)
    (hfacts : ∀ f ∈ t.facts, Stratum ev graph rules level (IsBase graph stored) (level r + 1) f)
    (hc : r.Concludes ev graph t q) :
    Stratum ev graph rules level (IsBase graph stored) (level r + 1) q := by
  have hmem : r ∈ rules.filter fun s => level s = level r :=
    List.mem_filter.2 ⟨hr, decide_eq_true rfl⟩
  cases ha : r.condition.aggregation with
  | none =>
      rw [Condition.isOutput_of_none ha] at hout
      exact .byMatch hmem ha hfacts ((h.admits_iff hstrat hr).2 hout.2) hc
  | some a =>
      rw [Condition.isOutput_of_some ha, ← h.isMatch_eq hstrat hr ha] at hout
      exact .byRow hmem ha hout hc

private theorem stratum_of_founded (hstrat : IsStratified ev graph rules level)
    (hagree : ∀ k < n, AgreesAt ev graph rules level stored k)
    (hq : Founded ev graph rules stored q) :
    ∀ k ≤ n, IsBelow ev graph rules level k q →
      Stratum ev graph rules level (IsBase graph stored) k q := by
  induction hq with
  | base hs hg => exact fun k _ _ => Stratum.mono (n := 0) ⟨hs, hg⟩ (Nat.zero_le k)
  | @byOutput r t q hr hout _ hc ih =>
      intro k hk hbelow
      have hlevel : level r < k := hbelow r hr t hc
      refine Stratum.mono (stratum_of_output (hagree (level r) (by omega)) hstrat hr hout
        (fun f hf => ?_) hc) hlevel
      exact ih f hf (level r + 1) (by omega) (hstrat.isBelow_of_reads hr (hout.reads f hf))

private theorem strata_of_founded (hstrat : IsStratified ev graph rules level)
    (hclosed : HoldsConclusions ev graph rules stored)
    (hfounded : ∀ q, stored q → Founded ev graph rules stored q) (n : Nat) :
    AgreesAt ev graph rules level stored n ∧
      ∀ q, Stratum ev graph rules level (IsBase graph stored) n q → stored q := by
  induction n using Nat.strongRecOn with
  | ind n ih =>
      have hsub : ∀ q, Stratum ev graph rules level (IsBase graph stored) n q → stored q := by
        cases n with
        | zero => exact fun q hq => hq.1
        | succ n =>
            obtain ⟨hagree, hbelow⟩ := ih n (Nat.lt_succ_self n)
            intro q hq
            refine IsClosed.of_derivable ⟨hbelow, fun r hmem ha t hheld hadmits q hc => ?_,
              fun r hmem a ha row hrow q hc => ?_⟩ hq
            · obtain ⟨hr, hlevel⟩ := List.mem_filter.1 hmem
              obtain rfl : level r = n := of_decide_eq_true hlevel
              refine hclosed r hr t q ?_ hc
              rw [Condition.isOutput_of_none ha]
              exact ⟨hheld, (hagree.admits_iff hstrat hr).1 hadmits⟩
            · obtain ⟨hr, hlevel⟩ := List.mem_filter.1 hmem
              obtain rfl : level r = n := of_decide_eq_true hlevel
              refine hclosed r hr row q ?_ hc
              rw [Condition.isOutput_of_some ha, ← hagree.isMatch_eq hstrat hr ha]
              exact hrow
      refine ⟨fun q hbelow => ⟨fun hq => ?_, hsub q⟩, hsub⟩
      exact stratum_of_founded hstrat (fun k hk => (ih k hk).1) (hfounded q hq) n (Nat.le_refl n)
        hbelow

private theorem exists_level_lt (rules : List Rule) (level : Rule → Nat) :
    ∃ n, ∀ r ∈ rules, level r < n := by
  induction rules with
  | nil => exact ⟨0, fun r hr => absurd hr List.not_mem_nil⟩
  | cons r rest ih =>
      obtain ⟨n, hn⟩ := ih
      refine ⟨max (level r + 1) n, fun s hs => ?_⟩
      rcases List.mem_cons.1 hs with rfl | hs
      · omega
      · have := hn s hs
        omega

/-- A set in which everything is founded is the stratified model over its base. -/
theorem stratifiedModel_iff_stored (hstrat : IsStratified ev graph rules level)
    (hclosed : HoldsConclusions ev graph rules stored)
    (hfounded : ∀ q, stored q → Founded ev graph rules stored q) :
    StratifiedModel ev graph rules level (IsBase graph stored) q ↔ stored q := by
  constructor
  · rintro ⟨n, hn⟩
    exact (strata_of_founded hstrat hclosed hfounded n).2 q hn
  · intro hq
    obtain ⟨n, hn⟩ := exists_level_lt rules level
    exact ⟨n, ((strata_of_founded hstrat hclosed hfounded n).1 q fun s hs _ _ => hn s hs).1 hq⟩

theorem founded_of_stratifiedModel (hstrat : IsStratified ev graph rules level)
    (hmodel : ∀ q, StratifiedModel ev graph rules level (IsBase graph stored) q ↔ stored q)
    (hq : stored q) : Founded ev graph rules stored q := by
  have hagree : ∀ n, AgreesAt ev graph rules level stored n := by
    intro n q hbelow
    rw [← hmodel q]
    constructor
    · rintro ⟨m, hm⟩
      exact hm.of_isBelow hbelow
    · exact fun hn => ⟨n, hn⟩
  have hall : ∀ n q, Stratum ev graph rules level (IsBase graph stored) n q →
      Founded ev graph rules stored q := by
    intro n
    induction n with
    | zero => exact fun q hq => .base hq.1 hq.2
    | succ n ih =>
        intro q hq
        have hstored : ∀ q, Stratum ev graph rules level (IsBase graph stored) (n + 1) q →
            stored q := fun q hq => (hmodel q).1 ⟨n + 1, hq⟩
        have hderived : Derivable ev graph (rules.filter fun r => level r = n)
            (Stratum ev graph rules level (IsBase graph stored) n) q := hq
        clear hq
        induction hderived with
        | settled hs => exact ih _ hs
        | @byMatch r t q hmem ha hfacts hadmits hc ihfacts =>
            obtain ⟨hr, hlevel⟩ := List.mem_filter.1 hmem
            obtain rfl : level r = n := of_decide_eq_true hlevel
            refine .byOutput hr ?_ ihfacts hc
            rw [Condition.isOutput_of_none ha]
            exact ⟨fun f hf => hstored f (hfacts f hf),
              ((hagree (level r)).admits_iff hstrat hr).1 hadmits⟩
        | @byRow r a row q hmem ha hrow hc =>
            obtain ⟨hr, hlevel⟩ := List.mem_filter.1 hmem
            obtain rfl : level r = n := of_decide_eq_true hlevel
            refine .byOutput hr ?_ (fun f hf => ?_) hc
            · rw [Condition.isOutput_of_some ha, ← (hagree (level r)).isMatch_eq hstrat hr ha]
              exact hrow
            · rw [Condition.facts_of_isRow hrow] at hf
              exact absurd hf List.not_mem_nil
  obtain ⟨n, hn⟩ := (hmodel q).2 hq
  exact hall n q hn

end Strata

end Entail
