import Entail.Proofs.Network.Binding
import Entail.Proofs.Network.Residue
/-!
# Calls of a chain

Seeds and quads come and go in any order, known ones and unknown ones too. Whatever happened, a chain
holds at each level the matches that its seeds and quads make, and each call answers with the complete
matches that it makes or breaks.
-/

namespace Entail

variable {u : Update} {seeds : Token → Prop} {held : Quad → Prop} {bound all : OrderedSet Variable}
  {pre ps : List Pattern} {i : Nat}

theorem Partial.isMatch_iff_matches {p : Partial} :
    IsMatch seeds held ps p ↔ Matches seeds held ps p := by
  constructor
  · rintro ⟨hseed, hheld, hagrees, hfits, hbinds⟩
    exact ⟨hseed, hheld, Bindings.join?_eq_some_iff.2 ⟨hagrees, hfits, hbinds⟩⟩
  · rintro ⟨hseed, hheld, hjoin⟩
    obtain ⟨hagrees, hfits, hbinds⟩ := Bindings.join?_eq_some_iff.1 hjoin
    exact ⟨hseed, hheld, hagrees, hfits, hbinds⟩

theorem Partial.isMatch_eq_matches (seeds : Token → Prop) (held : Quad → Prop) (ps : List Pattern) :
    IsMatch seeds held ps = Matches seeds held ps := by
  funext _
  exact propext isMatch_iff_matches

/-! ## Calls -/

namespace ChainCall

/-- The seeds that have come and not gone again. -/
def seedsOf (calls : List ChainCall) : Token → Prop :=
  Change.stepAll (calls.filterMap seed?) fun _ => False

/-- The quads that have come and not gone again. -/
def quadsOf (calls : List ChainCall) : Quad → Prop :=
  Change.stepAll (calls.filterMap fact?) fun _ => False

def update : ChainCall → Update
  | seed change => change.update
  | fact change => change.update

/-- A seed that is called for binds the variables of `bound`. -/
def Binds (bound : OrderedSet Variable) (x : ChainCall) : Prop :=
  ∀ change, x.seed? = some change → ∀ v ∈ bound, change.value.bindings.contains v = true

end ChainCall

namespace PartialMemory

variable {m : PartialMemory} {S : Partial → Prop} {p : Partial}

theorem Holds.update_of_stale (h : m.Holds S) {key : List Node} (hkey : m.IsKey p key)
    (hstale : ¬ u.IsFresh S p) : update u m p = .ok ([], m) := by
  have hcontains := h.contains_iff hkey
  unfold update
  rw [show p.bindings.joinKey m.keyVariables = .ok key from hkey, Result.ok_bind]
  cases u with
  | insert => rw [hcontains.2 (not_not.1 hstale)]; rfl
  | remove =>
      have hfalse : m.partials.contains key p = false := by
        rw [← Bool.not_eq_true, hcontains]
        exact hstale
      rw [hfalse]
      rfl

end PartialMemory

namespace JoinChain

open Partial (Matches IsMatch)

variable {c : JoinChain}

private theorem push_nil (u : Update) (c : JoinChain) : c.push u [] = .ok ([], c) := by
  induction c with
  | done complete => rfl
  | stage before facts rest ih =>
      have hnone : facts.extendAll [] = .ok [] := rfl
      rw [push, runStage, Result.ok_bind]
      simp only [hnone, ih, Result.ok_bind]
      rfl

private theorem push_of_stale (h : Holds seeds held bound [] ps c) {t : Token}
    (ht : ∀ v ∈ bound, t.bindings.contains v = true) (hstale : ¬ u.IsFresh seeds t) :
    c.push u [.ofSeed t] = .ok ([], c) := by
  have hmatch : Matches seeds held [] (.ofSeed t) ↔ seeds t :=
    Partial.matches_nil_iff.trans (and_iff_left rfl)
  have hstale' : ¬ u.IsFresh (Matches seeds held []) (.ofSeed t) := by
    cases u with
    | insert => exact fun hfresh => hstale fun hs => hfresh (hmatch.2 hs)
    | remove => exact fun hfresh => hstale (hmatch.1 hfresh)
  cases h with
  | done hvars hcomplete =>
      have hkey : PartialMemory.IsKey _ (.ofSeed t) [] :=
        congrArg (Bindings.joinKey t.bindings) hvars
      rw [push, runStage, hcomplete.update_of_stale hkey hstale']
      rfl
  | @stage _ _ _ before facts rest hbefore hfacts hsame hvars hrest =>
      have hbound : ∀ v ∈ before.keyVariables, t.bindings.contains v = true := by
        intro v hv
        rcases hvars v (hsame ▸ hv) with hv | ⟨_, hp, _⟩
        · exact ht v hv
        · exact absurd hp List.not_mem_nil
      obtain ⟨key, hkey⟩ : ∃ key, before.IsKey (.ofSeed t) key :=
        Bindings.exists_joinKey_iff.2 hbound
      have hnone : facts.extendAll [] = .ok [] := rfl
      rw [push, runStage_cons (hbefore.update_of_stale hkey hstale') rfl, Result.ok_bind]
      simp only [List.append_nil, push_nil, hnone, Result.ok_bind]
      rfl

private theorem push_seed_spec (h : Holds seeds held bound [] ps c) (hseeds : Binds bound seeds)
    (u : Update) {t : Token} (ht : ∀ v ∈ bound, t.bindings.contains v = true) :
    ∃ out c', c.push u [.ofSeed t] = .ok (out, c') ∧
      Holds (u.apply seeds t) held bound [] ps c' ∧ Binds bound (u.apply seeds t) ∧
      u.Moves (Matches seeds held ps) (Matches (u.apply seeds t) held ps) out := by
  by_cases hfresh : u.IsFresh seeds t
  · cases u with
    | insert =>
        obtain ⟨out, c', hrun, hc', hout⟩ := h.addSeed_spec hseeds ht hfresh
        refine ⟨out, c', hrun, hc', ?_, hout⟩
        rintro s (hs | rfl)
        · exact hseeds s hs
        · exact ht
    | remove =>
        obtain ⟨out, c', hrun, hc', hout⟩ := h.removeSeed_spec hseeds hfresh
        exact ⟨out, c', hrun, hc', fun s hs => hseeds s hs.1, hout⟩
  · have heq : u.apply seeds t = seeds := by
      funext s
      exact propext (Update.apply_iff_of_not_isFresh hfresh s)
    rw [heq]
    exact ⟨[], c, push_of_stale h ht hfresh, h, hseeds, u.moves_nil _⟩

private theorem call_spec (h : Holds seeds held bound [] ps c) (hseeds : Binds bound seeds)
    (x : ChainCall) (hx : x.Binds bound) :
    ∃ out c', c.call x = .ok (out, c') ∧
      Holds (Change.stepAll x.seed?.toList seeds) (Change.stepAll x.fact?.toList held) bound [] ps c' ∧
      Binds bound (Change.stepAll x.seed?.toList seeds) ∧
      x.update.Moves (Matches seeds held ps)
        (Matches (Change.stepAll x.seed?.toList seeds) (Change.stepAll x.fact?.toList held) ps)
        out := by
  cases x with
  | seed change =>
      have ht := hx change rfl
      cases change with
      | gained t => exact push_seed_spec h hseeds .insert ht
      | lost t => exact push_seed_spec h hseeds .remove ht
  | fact change =>
      have hmeet := h.meet_nil_spec hseeds change.update change.value
      cases change with
      | gained q | lost q =>
          obtain ⟨out, c', hrun, hc', hout⟩ := hmeet
          exact ⟨out, c', hrun, hc', hseeds, hout⟩

private theorem run_spec (h : Holds seeds held bound [] ps c) (hseeds : Binds bound seeds)
    {calls : List ChainCall} (hcalls : ∀ x ∈ calls, x.Binds bound) :
    ∃ out c', runStage call c calls = .ok (out, c') ∧
      Holds (Change.stepAll (calls.filterMap ChainCall.seed?) seeds)
        (Change.stepAll (calls.filterMap ChainCall.fact?) held) bound [] ps c' ∧
      Binds bound (Change.stepAll (calls.filterMap ChainCall.seed?) seeds) := by
  induction calls generalizing c seeds held with
  | nil => exact ⟨[], c, rfl, h, hseeds⟩
  | cons x rest ih =>
      obtain ⟨out, c₁, h₁, hc₁, hseeds₁, _⟩ := call_spec h hseeds x (hcalls x List.mem_cons_self)
      obtain ⟨more, c₂, h₂, hc₂, hseeds₂⟩ :=
        ih hc₁ hseeds₁ fun y hy => hcalls y (List.mem_cons_of_mem _ hy)
      refine ⟨out ++ more, c₂, runStage_cons h₁ h₂, ?_, ?_⟩
      · rw [Change.stepAll_filterMap_cons, Change.stepAll_filterMap_cons]
        exact hc₂
      · rw [Change.stepAll_filterMap_cons]
        exact hseeds₂

/-! ## What a chain remembers -/

/-- The variables that the pattern after the first `i` shares with the seeds and the patterns before
it. -/
def JoinsOn (bound : OrderedSet Variable) (ps : List Pattern) (i : Nat) (v : Variable) : Prop :=
  ∃ p, ps[i]? = some p ∧ v ∈ p.vars ∧ (v ∈ bound ∨ ∃ q ∈ ps.take i, v ∈ q.vars)

/-- `b` has the nodes of `key` for the variables. -/
def HasKey (vars : List Variable) (b : Bindings) (key : List Node) : Prop :=
  vars.map b.get? = key.map some

/-- The chain holds the matches of each number of patterns over the seeds and the quads, and for each
pattern the quads that match it, all under the nodes of the variables on which they are joined. -/
structure Remembers (c : JoinChain) (bound : OrderedSet Variable) (ps : List Pattern)
    (seeds : Token → Prop) (held : Quad → Prop) : Prop where
  memory : ∀ i ≤ ps.length, ∃ m, c.memory? i = some m ∧
    (∀ v, v ∈ m.keyVariables ↔ JoinsOn bound ps i v) ∧
    ∀ key p, p ∈ m.partials.bucket key ↔
      IsMatch seeds held (ps.take i) p ∧ HasKey m.keyVariables p.bindings key
  facts : ∀ i p, ps[i]? = some p → ∃ before m, c.memory? i = some before ∧ c.facts? i = some m ∧
    m.keyVariables = before.keyVariables ∧
    ∀ key q b, (q, b) ∈ m.facts.bucket key ↔
      held q ∧ p.match? q = some b ∧ HasKey m.keyVariables b key
  level : ∀ i, (c.level i).Nodup ∧
    ∀ p, p ∈ c.level i ↔ i ≤ ps.length ∧ IsMatch seeds held (ps.take i) p

/-- `JoinsOn` for the later patterns of a chain. -/
private def JoinsAfter (bound : OrderedSet Variable) (pre ps : List Pattern) (i : Nat)
    (v : Variable) : Prop :=
  ∃ p, ps[i]? = some p ∧ v ∈ p.vars ∧ (v ∈ bound ∨ ∃ q ∈ pre ++ ps.take i, v ∈ q.vars)

private theorem joinsAfter_cons {p : Pattern} {v : Variable} :
    JoinsAfter bound (pre ++ [p]) ps i v ↔ JoinsAfter bound pre (p :: ps) (i + 1) v := by
  simp only [JoinsAfter, List.getElem?_cons_succ, List.take_succ_cons, List.append_assoc,
    List.singleton_append]

/-- The variables of the seeds and of the patterns before. -/
private def Covers (all bound : OrderedSet Variable) (pre : List Pattern) : Prop :=
  ∀ v, v ∈ all ↔ v ∈ bound ∨ ∃ p ∈ pre, v ∈ p.vars

private theorem Covers.union (h : Covers all bound pre) (p : Pattern) :
    Covers (all.union p.vars) bound (pre ++ [p]) := by
  intro v
  rw [OrderedSet.mem_union, h v]
  simp only [List.mem_append, List.mem_singleton, or_and_right, exists_or, exists_eq_left, or_assoc]

private theorem Covers.mem_shared_iff (h : Covers all bound pre) {p : Pattern} {v : Variable} :
    v ∈ p.shared all ↔ JoinsAfter bound pre (p :: ps) 0 v := by
  rw [Pattern.mem_shared, h v]
  simp only [JoinsAfter, List.getElem?_cons_zero, Option.some_inj, exists_eq_left', List.take_zero,
    List.append_nil]

private theorem Holds.memory_spec (h : Holds seeds held bound pre ps c) (hbuilt : IsBuilt all ps c)
    (hall : Covers all bound pre) (hi : i ≤ ps.length) :
    ∃ m, c.memory? i = some m ∧ (∀ v, v ∈ m.keyVariables ↔ JoinsAfter bound pre ps i v) ∧
      m.Holds (Matches seeds held (pre ++ ps.take i)) := by
  induction h generalizing all i with
  | @done pre complete hvars hcomplete =>
      obtain rfl := Nat.le_zero.1 hi
      refine ⟨complete, rfl, fun v => ?_, ?_⟩
      · rw [hvars]
        exact iff_of_false List.not_mem_nil fun ⟨_, hp, _⟩ => by cases hp
      · rw [List.take_zero, List.append_nil]
        exact hcomplete
  | @stage pre ps p before facts rest hbefore _ _ _ _ ih =>
      cases hbuilt with
      | stage hbuiltb _ hbuiltr =>
          cases i with
          | zero =>
              refine ⟨before, rfl, fun v => ?_, ?_⟩
              · rw [hbuiltb.keyVariables_eq]
                exact hall.mem_shared_iff
              · rw [List.take_zero, List.append_nil]
                exact hbefore
          | succ i =>
              obtain ⟨m, hm, hvars, hholds⟩ :=
                ih hbuiltr (hall.union p) (Nat.le_of_succ_le_succ hi)
              refine ⟨m, hm, fun v => (hvars v).trans joinsAfter_cons, ?_⟩
              rw [List.take_succ_cons, List.append_cons]
              exact hholds

private theorem Holds.facts_spec (h : Holds seeds held bound pre ps c) {p : Pattern}
    (hp : ps[i]? = some p) :
    ∃ before m, c.memory? i = some before ∧ c.facts? i = some m ∧
      m.keyVariables = before.keyVariables ∧ m.Holds p held := by
  induction h generalizing i with
  | done _ _ => cases hp
  | @stage pre ps p' before facts rest _ hfacts hsame _ _ ih =>
      cases i with
      | zero =>
          obtain rfl : p' = p := Option.some_inj.1 hp
          exact ⟨before, facts, rfl, rfl, hsame.symm, hfacts⟩
      | succ i => exact ih hp

private theorem level_eq_toList {m : PartialMemory} (h : c.memory? i = some m) :
    c.level i = m.toList := by
  induction c generalizing i with
  | done complete =>
      cases i with
      | zero =>
          obtain rfl := Option.some_inj.1 h
          rfl
      | succ i => cases h
  | stage before facts rest ih =>
      cases i with
      | zero =>
          obtain rfl := Option.some_inj.1 h
          rfl
      | succ i => exact ih h

private theorem nodup_of_holds {m : PartialMemory} {S : Partial → Prop} (h : m.Holds S) :
    m.toList.Nodup := by
  refine Index.nodup_toList fun key key' p hp hp' => ?_
  have hkey := ((h.mem_iff key p).1 hp).2
  have hkey' := ((h.mem_iff key' p).1 hp').2
  exact Result.eq_of_eq_ok hkey hkey'

theorem Holds.remembers (h : Holds seeds held bound [] ps c) (hbuilt : IsBuilt bound ps c) :
    c.Remembers bound ps seeds held := by
  have hall : Covers bound bound [] := by
    intro v
    simp
  have hnodup : ∀ i, (c.level i).Nodup := by
    intro i
    rcases Nat.lt_or_ge ps.length i with hi | hi
    · rw [h.level_eq_nil hi]
      exact List.nodup_nil
    · obtain ⟨m, hm, _, hholds⟩ := h.memory_spec hbuilt hall hi
      rw [level_eq_toList hm]
      exact nodup_of_holds hholds
  constructor
  · intro i hi
    obtain ⟨m, hm, hvars, hholds⟩ := h.memory_spec hbuilt hall hi
    refine ⟨m, hm, hvars, fun key p => ?_⟩
    rw [hholds.mem_iff, Partial.isMatch_iff_matches, PartialMemory.IsKey,
      Bindings.joinKey_eq_ok_iff]
    exact Iff.rfl
  · intro i p hp
    obtain ⟨before, m, hbefore, hm, hsame, hholds⟩ := h.facts_spec hp
    refine ⟨before, m, hbefore, hm, hsame, fun key q b => ?_⟩
    rw [hholds.mem_iff, Bindings.joinKey_eq_ok_iff]
    exact Iff.rfl
  · refine fun i => ⟨hnodup i, fun p => ?_⟩
    rw [Partial.isMatch_iff_matches]
    by_cases hi : i ≤ ps.length
    · rw [h.mem_level_iff hi]
      exact (and_iff_right hi).symm
    · rw [h.level_eq_nil (Nat.lt_of_not_le hi)]
      exact iff_of_false List.not_mem_nil fun hp => hi hp.1

/-! ## Runs from the empty chain -/

theorem run_ofPatterns (ps : List Pattern) {calls : List ChainCall}
    (hcalls : ∀ x ∈ calls, x.Binds bound) :
    ∃ out c, runStage call (ofPatterns bound ps) calls = .ok (out, c) ∧
      Holds (ChainCall.seedsOf calls) (ChainCall.quadsOf calls) bound [] ps c ∧
      Binds bound (ChainCall.seedsOf calls) ∧ IsBuilt bound ps c := by
  obtain ⟨out, c, hrun, hc, hseeds⟩ :=
    run_spec (holds_ofPatterns bound ps) (fun _ => False.elim) hcalls
  have hbuilt : IsBuilt bound ps c := by
    refine runStage_inv (IsBuilt bound ps) (fun _ _ _ _ hs hcall => ?_)
      (isBuilt_ofPatterns bound ps) hrun
    exact hs.call hcall
  exact ⟨out, c, hrun, hc, hseeds, hbuilt⟩

/-- Whatever calls were made of a chain, it holds what the seeds and the quads make that are there
now, and the next call answers with the complete matches that it makes or breaks. Calls that leave the
same seeds and the same quads leave the same chain. -/
theorem remembers_seeds_and_quads (bound : OrderedSet Variable) (ps : List Pattern)
    (calls : List ChainCall) (next : ChainCall)
    (hcalls : ∀ x ∈ calls ++ [next], x.Binds bound) :
    ∃ early c found c', runStage call (ofPatterns bound ps) calls = .ok (early, c) ∧
      c.call next = .ok (found, c') ∧
      c.Remembers bound ps (ChainCall.seedsOf calls) (ChainCall.quadsOf calls) ∧
      next.update.Moves (IsMatch (ChainCall.seedsOf calls) (ChainCall.quadsOf calls) ps)
        (IsMatch (ChainCall.seedsOf (calls ++ [next])) (ChainCall.quadsOf (calls ++ [next])) ps)
        found ∧
      ∀ others : List ChainCall, (∀ x ∈ others, x.Binds bound) →
        (∀ t, ChainCall.seedsOf others t ↔ ChainCall.seedsOf calls t) →
        (∀ q, ChainCall.quadsOf others q ↔ ChainCall.quadsOf calls q) →
        ∃ out, runStage call (ofPatterns bound ps) others = .ok (out, c) := by
  obtain ⟨early, c, hrun, hc, hseeds, hbuilt⟩ :=
    run_ofPatterns ps fun x hx => hcalls x (List.mem_append_left _ hx)
  have hnext : next.Binds bound := hcalls next (List.mem_append_right _ (List.mem_singleton_self _))
  obtain ⟨found, c', hcall, _, _, hfound⟩ := call_spec hc hseeds next hnext
  have hseeds' : ChainCall.seedsOf (calls ++ [next]) =
      Change.stepAll next.seed?.toList (ChainCall.seedsOf calls) :=
    Change.stepAll_filterMap_concat ChainCall.seed? calls next _
  have hquads' : ChainCall.quadsOf (calls ++ [next]) =
      Change.stepAll next.fact?.toList (ChainCall.quadsOf calls) :=
    Change.stepAll_filterMap_concat ChainCall.fact? calls next _
  refine ⟨early, c, found, c', hrun, hcall, hc.remembers hbuilt, ?_, fun others ho hs hq => ?_⟩
  · rw [Partial.isMatch_eq_matches, Partial.isMatch_eq_matches, hseeds', hquads']
    exact hfound
  · obtain ⟨out, c₂, hrun₂, hc₂, _, hbuilt₂⟩ := run_ofPatterns ps ho
    have hseeds₂ : ChainCall.seedsOf others = ChainCall.seedsOf calls := by
      funext t
      exact propext (hs t)
    have hquads₂ : ChainCall.quadsOf others = ChainCall.quadsOf calls := by
      funext q
      exact propext (hq q)
    rw [hseeds₂, hquads₂] at hc₂
    rw [hbuilt₂.eq_of_holds hbuilt hc₂ hc] at hrun₂
    exact ⟨out, hrun₂⟩

/-- Somebody who knows himself stands for both ends of a way of two steps. The match goes with the
quad, once, and making and unmaking another match leaves no trace. -/
theorem remembers_selfKnower :
    let knows := fun x y => Pattern.mk .any (.variable ⟨x⟩) (.node (.iri "knows")) (.variable ⟨y⟩)
    let ps := [knows "x" "y", knows "y" "z"]
    let quad := fun s o => Quad.mk (.iri "g") (.iri s) (.iri "knows") (.iri o)
    let calls := [.seed (.gained .root), .fact (.gained (quad "anna" "anna"))]
    let next := .fact (.lost (quad "anna" "anna"))
    let detour := [.fact (.gained (quad "anna" "ben")), .fact (.lost (quad "anna" "ben")),
      .fact (.lost (quad "carl" "ben"))]
    (∀ x ∈ calls ++ [next], x.Binds ∅) ∧ (∀ x ∈ calls ++ detour, x.Binds ∅) ∧
      ∃ early c found c' out, runStage call (ofPatterns ∅ ps) calls = .ok (early, c) ∧
        c.call next = .ok (found, c') ∧
        found.map Partial.facts = [[quad "anna" "anna", quad "anna" "anna"]] ∧
        c.Remembers ∅ ps (ChainCall.seedsOf calls) (ChainCall.quadsOf calls) ∧
        runStage call (ofPatterns ∅ ps) (calls ++ detour) = .ok (out, c) := by
  intro knows ps quad calls next detour
  have hbinds : ∀ x : ChainCall, x.Binds ∅ := fun _ _ _ v hv =>
    absurd hv (OrderedSet.not_mem_empty v)
  obtain ⟨early, c, found, c', hrun, hcall, hremembers, _, hothers⟩ :=
    remembers_seeds_and_quads ∅ ps calls next fun x _ => hbinds x
  have hfound : ((runStage call (ofPatterns ∅ ps) calls).toOption.bind fun r =>
      (r.2.call next).toOption.map fun r => r.1.map Partial.facts) =
        some [[quad "anna" "anna", quad "anna" "anna"]] := by
    decide +kernel
  simp only [hrun, hcall, Except.toOption, Option.bind_some, Option.map_some, Option.some_inj]
    at hfound
  have hseeds : ∀ t, ChainCall.seedsOf (calls ++ detour) t ↔ ChainCall.seedsOf calls t :=
    fun _ => Iff.rfl
  have hquads : ∀ q, ChainCall.quadsOf (calls ++ detour) q ↔ ChainCall.quadsOf calls q := by
    intro q
    have hben : quad "anna" "anna" ≠ quad "anna" "ben" := by decide
    have hcarl : quad "anna" "anna" ≠ quad "carl" "ben" := by decide
    change (((False ∨ q = quad "anna" "anna") ∨ q = quad "anna" "ben") ∧ q ≠ quad "anna" "ben") ∧
      q ≠ quad "carl" "ben" ↔ False ∨ q = quad "anna" "anna"
    constructor
    · tauto
    · rintro (hq | rfl)
      · exact hq.elim
      · exact ⟨⟨Or.inl (Or.inr rfl), hben⟩, hcarl⟩
  obtain ⟨out, hout⟩ := hothers (calls ++ detour) (fun x _ => hbinds x) hseeds hquads
  exact ⟨fun x _ => hbinds x, fun x _ => hbinds x, early, c, found, c', out, hrun, hcall, hfound,
    hremembers, hout⟩

end JoinChain

end Entail
