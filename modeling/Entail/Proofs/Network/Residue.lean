import Entail.Network.Calls
import Entail.Proofs.Network.Chain
/-!
# No residue

A chain keeps the key variables it was made with, and no memory of it keeps an empty bucket. So two
chains for one list of patterns that hold the same are the same chain, whatever happened to them.
-/

namespace Entail

variable {u : Update} {seeds : Token → Prop} {held : Quad → Prop} {bound all : OrderedSet Variable}
  {pre ps : List Pattern} {pattern : Pattern} {vars : List Variable} {q : Quad}

/-- The variables of a pattern that are among `all`. -/
def Pattern.shared (p : Pattern) (all : OrderedSet Variable) : List Variable :=
  (p.vars.filter all.contains).toList

theorem Pattern.mem_shared {p : Pattern} {v : Variable} :
    v ∈ p.shared all ↔ v ∈ p.vars ∧ v ∈ all := by
  rw [shared, OrderedSet.mem_toList_iff, OrderedSet.mem_filter]
  rfl

/-! ## Memories -/

namespace PartialMemory

variable {m m' : PartialMemory} {S : Partial → Prop} {p : Partial} {out ps : List Partial}

/-- The memory files matches under the nodes of `vars` and keeps no empty bucket. -/
structure IsBuilt (m : PartialMemory) (vars : List Variable) : Prop where
  keyVariables_eq : m.keyVariables = vars
  tidy : m.partials.IsTidy

theorem isBuilt_new (vars : List Variable) : (new vars).IsBuilt vars :=
  ⟨rfl, Index.isTidy_empty⟩

theorem IsBuilt.update (h : m.IsBuilt vars) (hrun : update u m p = .ok (out, m')) :
    m'.IsBuilt vars := by
  obtain ⟨key, _, hrun⟩ := Result.bind_eq_ok_iff.1 hrun
  split at hrun
  · obtain ⟨_, rfl⟩ := Prod.mk.inj (Except.ok.inj hrun)
    exact ⟨h.keyVariables_eq, h.tidy.insert key p⟩
  · obtain ⟨_, rfl⟩ := Prod.mk.inj (Except.ok.inj hrun)
    exact ⟨h.keyVariables_eq, h.tidy.erase key p⟩
  · obtain ⟨_, rfl⟩ := Prod.mk.inj (Except.ok.inj hrun)
    exact h

theorem IsBuilt.runStage (h : m.IsBuilt vars)
    (hrun : runStage (PartialMemory.update u) m ps = .ok (out, m')) : m'.IsBuilt vars := by
  refine runStage_inv (fun m => m.IsBuilt vars) (fun _ _ _ _ hm hupdate => ?_) h hrun
  exact hm.update hupdate

theorem IsBuilt.eq_of_holds (h : m.IsBuilt vars) (h' : m'.IsBuilt vars) (hm : m.Holds S)
    (hm' : m'.Holds S) : m = m' := by
  have hvars : m.keyVariables = m'.keyVariables := h.keyVariables_eq.trans h'.keyVariables_eq.symm
  have hpartials : m.partials = m'.partials := by
    refine h.tidy.ext h'.tidy fun key p => ?_
    rw [hm.mem_iff, hm'.mem_iff, IsKey, IsKey, hvars]
  cases m
  cases m'
  simp_all

end PartialMemory

namespace FactMemory

variable {m m' : FactMemory} {met : Option Bindings}

/-- The same for the quads of a pattern. -/
structure IsBuilt (m : FactMemory) (pattern : Pattern) (vars : List Variable) : Prop where
  pattern_eq : m.pattern = pattern
  keyVariables_eq : m.keyVariables = vars
  tidy : m.facts.IsTidy

theorem isBuilt_new (pattern : Pattern) (vars : List Variable) :
    (new pattern vars).IsBuilt pattern vars :=
  ⟨rfl, rfl, Index.isTidy_empty⟩

theorem IsBuilt.update (h : m.IsBuilt pattern vars) (hrun : m.update u q = .ok (met, m')) :
    m'.IsBuilt pattern vars := by
  unfold FactMemory.update at hrun
  split at hrun
  · obtain ⟨_, rfl⟩ := Prod.mk.inj (Except.ok.inj hrun)
    exact h
  · obtain ⟨key, _, hrun⟩ := Result.bind_eq_ok_iff.1 hrun
    split at hrun
    · obtain ⟨_, rfl⟩ := Prod.mk.inj (Except.ok.inj hrun)
      exact ⟨h.pattern_eq, h.keyVariables_eq, h.tidy.insert key _⟩
    · obtain ⟨_, rfl⟩ := Prod.mk.inj (Except.ok.inj hrun)
      exact ⟨h.pattern_eq, h.keyVariables_eq, h.tidy.erase key _⟩
    · obtain ⟨_, rfl⟩ := Prod.mk.inj (Except.ok.inj hrun)
      exact h

theorem IsBuilt.eq_of_holds (h : m.IsBuilt pattern vars) (h' : m'.IsBuilt pattern vars)
    (hm : m.Holds pattern held) (hm' : m'.Holds pattern held) : m = m' := by
  have hpattern : m.pattern = m'.pattern := h.pattern_eq.trans h'.pattern_eq.symm
  have hvars : m.keyVariables = m'.keyVariables := h.keyVariables_eq.trans h'.keyVariables_eq.symm
  have hfacts : m.facts = m'.facts := by
    refine h.tidy.ext h'.tidy fun key ⟨q, b⟩ => ?_
    rw [hm.mem_iff, hm'.mem_iff, hvars]
  cases m
  cases m'
  simp_all

end FactMemory

/-! ## Chains -/

namespace JoinChain

variable {c c' : JoinChain} {out rs : List Partial}

/-- The chain is one for the patterns after others that bind `all`. -/
inductive IsBuilt : OrderedSet Variable → List Pattern → JoinChain → Prop where
  | done {all : OrderedSet Variable} {complete : PartialMemory} :
    complete.IsBuilt [] → IsBuilt all [] (.done complete)
  | stage {all : OrderedSet Variable} {p : Pattern} {ps : List Pattern} {before : PartialMemory}
    {facts : FactMemory} {rest : JoinChain} :
    before.IsBuilt (p.shared all) → facts.IsBuilt p (p.shared all) →
    IsBuilt (all.union p.vars) ps rest → IsBuilt all (p :: ps) (.stage before facts rest)

theorem isBuilt_ofPatterns (all : OrderedSet Variable) (ps : List Pattern) :
    IsBuilt all ps (ofPatterns all ps) := by
  induction ps generalizing all with
  | nil => exact .done (PartialMemory.isBuilt_new [])
  | cons p ps ih =>
      exact .stage (PartialMemory.isBuilt_new _) (FactMemory.isBuilt_new p _) (ih _)

theorem IsBuilt.push (h : IsBuilt all ps c) (hrun : c.push u rs = .ok (out, c')) :
    IsBuilt all ps c' := by
  induction h generalizing rs out c' with
  | done hcomplete =>
      obtain ⟨⟨_, complete'⟩, hstage, hrun⟩ := Result.bind_eq_ok_iff.1 hrun
      obtain ⟨_, rfl⟩ := Prod.mk.inj (Except.ok.inj hrun)
      exact .done (hcomplete.runStage hstage)
  | stage hbefore hfacts _ ih =>
      obtain ⟨⟨_, before'⟩, hstage, hrun⟩ := Result.bind_eq_ok_iff.1 hrun
      obtain ⟨_, _, hrun⟩ := Result.bind_eq_ok_iff.1 hrun
      obtain ⟨⟨_, rest'⟩, hrest, hrun⟩ := Result.bind_eq_ok_iff.1 hrun
      obtain ⟨_, rfl⟩ := Prod.mk.inj (Except.ok.inj hrun)
      exact .stage (hbefore.runStage hstage) hfacts (ih hrest)

theorem IsBuilt.meet (h : IsBuilt all ps c) (hrun : c.meet u q rs = .ok (out, c')) :
    IsBuilt all ps c' := by
  induction h generalizing rs out c' with
  | done hcomplete => exact (IsBuilt.done hcomplete).push hrun
  | stage hbefore hfacts _ ih =>
      obtain ⟨⟨_, before'⟩, hstage, hrun⟩ := Result.bind_eq_ok_iff.1 hrun
      obtain ⟨_, _, hrun⟩ := Result.bind_eq_ok_iff.1 hrun
      obtain ⟨⟨_, facts'⟩, hupdate, hrun⟩ := Result.bind_eq_ok_iff.1 hrun
      obtain ⟨_, _, hrun⟩ := Result.bind_eq_ok_iff.1 hrun
      obtain ⟨⟨_, rest'⟩, hrest, hrun⟩ := Result.bind_eq_ok_iff.1 hrun
      obtain ⟨_, rfl⟩ := Prod.mk.inj (Except.ok.inj hrun)
      exact .stage (hbefore.runStage hstage) (hfacts.update hupdate) (ih hrest)

theorem IsBuilt.call {x : ChainCall} (h : IsBuilt all ps c) (hrun : c.call x = .ok (out, c')) :
    IsBuilt all ps c' := by
  cases x with
  | seed change =>
      cases change with
      | gained t => exact IsBuilt.push h hrun
      | lost t => exact IsBuilt.push h hrun
  | fact change =>
      cases change with
      | gained q => exact IsBuilt.meet h hrun
      | lost q => exact IsBuilt.meet h hrun

/-- What a chain holds is all there is to it. -/
theorem IsBuilt.eq_of_holds (h : IsBuilt all ps c) (h' : IsBuilt all ps c')
    (hc : Holds seeds held bound pre ps c) (hc' : Holds seeds held bound pre ps c') : c = c' := by
  induction h generalizing pre c' with
  | done hcomplete =>
      cases h' with
      | done hcomplete' =>
          cases hc with
          | done _ hholds =>
              cases hc' with
              | done _ hholds' => rw [hcomplete.eq_of_holds hcomplete' hholds hholds']
  | stage hbefore hfacts _ ih =>
      cases h' with
      | stage hbefore' hfacts' hrest' =>
          cases hc with
          | stage hholds hholdsf _ _ hr =>
              cases hc' with
              | stage hholds' hholdsf' _ _ hr' =>
                  rw [hbefore.eq_of_holds hbefore' hholds hholds',
                    hfacts.eq_of_holds hfacts' hholdsf hholdsf', ih hrest' hr hr']

end JoinChain

end Entail
