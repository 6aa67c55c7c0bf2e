import Entail.Proofs.Rules.Ledger
import Entail.Proofs.Rules.Models
/-!
# Grounds

A stored conclusion is grounded if a match that fires concludes it from facts that are grounded in
turn, so that no group of conclusions only hold each other up. Facts whose removal waits to be
propagated, and facts in doubt, need no ground yet.
-/

namespace Entail.RuleEngine

variable {clean : Prop} {e e' : RuleEngine} {σ σ' : Store} {c : Change Quad} {q : Quad}
  {hidden hidden' awaited doubted doubted' held : Quad → Prop}

inductive Grounded (e : RuleEngine) (σ : Store) (hidden doubted : Quad → Prop) : Quad → Prop where
  | byMatch {r : Rule} {t : Token} {q : Quad} :
    e.Fires r t → r.Concludes e.evaluator e.graph t q →
    (∀ f ∈ t.facts, f.graph = e.graph → .lost f ∉ e.queue σ → σ.contents.Has f ∧ ¬ hidden f) →
    (∀ f ∈ t.facts, f.graph = e.graph → .lost f ∉ e.queue σ → ¬ doubted f →
      Grounded e σ hidden doubted f) →
    Grounded e σ hidden doubted q

/-- Every conclusion in view and not in doubt is grounded. -/
def AllGrounded (e : RuleEngine) (σ : Store) (hidden doubted : Quad → Prop) : Prop :=
  ∀ q, σ.contents.Has q → q.graph = e.graph → ¬ hidden q → ¬ doubted q →
    e.Grounded σ hidden doubted q

/-- How matches and facts have to carry over from one state to the next for grounds to be kept. -/
structure CarriesOver (e e' : RuleEngine) (σ σ' : Store)
    (hidden hidden' doubted doubted' : Quad → Prop) : Prop where
  graph_eq : e'.graph = e.graph
  evaluator_eq : e'.evaluator = e.evaluator
  fires : ∀ r t q, e.Fires r t → r.Concludes e.evaluator e.graph t q → ¬ doubted' q →
    e'.Fires r t
  facts : ∀ r t, e'.Fires r t → ∀ f ∈ t.facts, f.graph = e.graph → .lost f ∉ e'.queue σ' →
    .lost f ∉ e.queue σ ∧
      (σ.contents.Has f → ¬ hidden f → σ'.contents.Has f ∧ ¬ hidden' f)
  doubts : ∀ q, σ'.contents.Has q → ¬ hidden' q → ¬ doubted' q → ¬ doubted q

theorem Grounded.carry (h : e.Grounded σ hidden doubted q)
    (hc : e.CarriesOver e' σ σ' hidden hidden' doubted doubted') (hq : ¬ doubted' q) :
    e'.Grounded σ' hidden' doubted' q := by
  induction h with
  | @byMatch r t q hfires hconcludes hview _ ih =>
      have hfires' := hc.fires r t q hfires hconcludes hq
      have hview' : ∀ f ∈ t.facts, f.graph = e'.graph → .lost f ∉ e'.queue σ' →
          σ'.contents.Has f ∧ ¬ hidden' f := by
        intro f hf hg hlost
        rw [hc.graph_eq] at hg
        obtain ⟨hlost', hkeep⟩ := hc.facts r t hfires' f hf hg hlost
        obtain ⟨hhas, hhidden⟩ := hview f hf hg hlost'
        exact hkeep hhas hhidden
      refine .byMatch hfires' ?_ hview' fun f hf hg hlost hdoubt => ?_
      · rw [hc.graph_eq, hc.evaluator_eq]
        exact hconcludes
      · obtain ⟨hhas, hhidden⟩ := hview' f hf hg hlost
        rw [hc.graph_eq] at hg
        have hlost' := (hc.facts r t hfires' f hf hg hlost).1
        exact ih f hf hg hlost' (hc.doubts f hhas hhidden hdoubt) hdoubt

/-- A conclusion that comes into view needs a match over what was in view before. -/
theorem AllGrounded.step (h : e.AllGrounded σ hidden doubted)
    (hc : e.CarriesOver e' σ σ' hidden hidden' doubted doubted')
    (hnew : ∀ q, σ'.contents.Has q → q.graph = e.graph → ¬ hidden' q → ¬ doubted' q →
      (σ.contents.Has q ∧ ¬ hidden q) ∨
      ∃ r t, e'.Fires r t ∧ r.Concludes e.evaluator e.graph t q ∧
        ∀ f ∈ t.facts, .lost f ∈ e'.queue σ' ∨ (σ.contents.Has f ∧ ¬ hidden f)) :
    e'.AllGrounded σ' hidden' doubted' := by
  have hold : ∀ q, σ.contents.Has q → q.graph = e.graph → ¬ hidden q → σ'.contents.Has q →
      ¬ hidden' q → ¬ doubted' q → e'.Grounded σ' hidden' doubted' q := by
    intro q hhas hg hhidden hhas' hhidden' hdoubt'
    exact (h q hhas hg hhidden (hc.doubts q hhas' hhidden' hdoubt')).carry hc hdoubt'
  intro q hhas' hg hhidden' hdoubt'
  rw [hc.graph_eq] at hg
  rcases hnew q hhas' hg hhidden' hdoubt' with ⟨hhas, hhidden⟩ | ⟨r, t, hfires, hconcludes, hfacts⟩
  · exact hold q hhas hg hhidden hhas' hhidden' hdoubt'
  · have hview : ∀ f ∈ t.facts, .lost f ∉ e'.queue σ' → σ.contents.Has f ∧ ¬ hidden f :=
      fun f hf hlost => (hfacts f hf).resolve_left hlost
    refine .byMatch hfires ?_ (fun f hf hgf hlost => ?_) fun f hf hgf hlost hdoubt => ?_
    · rw [hc.graph_eq, hc.evaluator_eq]
      exact hconcludes
    · rw [hc.graph_eq] at hgf
      obtain ⟨hhas, hhidden⟩ := hview f hf hlost
      exact (hc.facts r t hfires f hf hgf hlost).2 hhas hhidden
    · rw [hc.graph_eq] at hgf
      obtain ⟨hhas, hhidden⟩ := hview f hf hlost
      obtain ⟨hhas', hhidden'⟩ := (hc.facts r t hfires f hf hgf hlost).2 hhas hhidden
      exact hold f hhas hgf hhidden hhas' hhidden' hdoubt

/-- Where the same rules match and the same quads are in doubt, only the facts have to be looked at. -/
theorem AllGrounded.step_of_facts (h : e.AllGrounded σ hidden doubted)
    (hgraph : e'.graph = e.graph) (hevaluator : e'.evaluator = e.evaluator)
    (hfires : ∀ r t, e.Fires r t → e'.Fires r t)
    (hfacts : ∀ f, f.graph = e.graph → .lost f ∉ e'.queue σ' → .lost f ∉ e.queue σ ∧
      (σ.contents.Has f → ¬ hidden f → σ'.contents.Has f ∧ ¬ hidden' f))
    (hnew : ∀ q, σ'.contents.Has q → q.graph = e.graph → ¬ hidden' q → ¬ doubted q →
      (σ.contents.Has q ∧ ¬ hidden q) ∨
      ∃ r t, e'.Fires r t ∧ r.Concludes e.evaluator e.graph t q ∧
        ∀ f ∈ t.facts, .lost f ∈ e'.queue σ' ∨ (σ.contents.Has f ∧ ¬ hidden f)) :
    e'.AllGrounded σ' hidden' doubted := by
  refine h.step ?_ hnew
  constructor
  · exact hgraph
  · exact hevaluator
  · exact fun r t _ hf _ _ => hfires r t hf
  · exact fun _ _ _ f _ hg hlost => hfacts f hg hlost
  · exact fun _ _ _ hdoubt => hdoubt

theorem Tracks.isHeld_of_fires {seen : String → (Quad → Prop) → Prop} (h : e.Tracks seen) {r : Rule}
    {t : Token} (hf : e.Fires r t) : ∃ held, seen r.id held ∧ t.IsHeld held := by
  obtain ⟨held, hheld, hiff⟩ := h.fires_iff (h.runs_of_fires hf)
  exact ⟨held, hheld, ((hiff t).1 hf).isHeld⟩

/-- In a clean history a supported quad is concluded from facts in view, or on their way out. -/
theorem Ledger.exists_match (h : Ledger clean e σ hidden awaited doubted) (hclean : clean)
    (hq : 0 < e.support.total q) :
    ∃ r t, e.Fires r t ∧ r.Concludes e.evaluator e.graph t q ∧
      ∀ f ∈ t.facts, .lost f ∈ e.queue σ ∨ (σ.contents.Has f ∧ ¬ hidden f) := by
  obtain ⟨r, t, hfires, hconcludes⟩ := h.tracks.total_pos_iff.1 hq
  obtain ⟨held, hheld, hfacts⟩ := h.tracks.isHeld_of_fires hfires
  exact ⟨r, t, hfires, hconcludes, fun f hf => hheld.view_or_lost hclean (hfacts f hf)⟩

/-! ## The steps -/

namespace AllGrounded

theorem mono (h : e.AllGrounded σ hidden doubted) (hhidden : ∀ q, hidden q ↔ hidden' q)
    (hdoubted : ∀ q, doubted q → doubted' q ∨ hidden q ∨ ¬ σ.contents.Has q) :
    e.AllGrounded σ hidden' doubted' := by
  obtain rfl : hidden = hidden' := by
    funext q
    exact propext (hhidden q)
  have hdoubts : ∀ q, σ.contents.Has q → ¬ hidden q → ¬ doubted' q → ¬ doubted q := by
    intro q hhas hhid hdoubt hd
    rcases hdoubted q hd with hd | hh | hnot
    · exact hdoubt hd
    · exact hhid hh
    · exact hnot hhas
  have hcarries : e.CarriesOver e σ σ hidden hidden doubted doubted' :=
    ⟨rfl, rfl, fun _ _ _ hf _ _ => hf, fun _ _ _ _ _ _ hlost => ⟨hlost, And.intro⟩, hdoubts⟩
  exact h.step hcarries fun q hhas _ hhid _ => Or.inl ⟨hhas, hhid⟩

theorem relabel (h : e.AllGrounded σ hidden doubted) (support : Support)
    (suspects withdrawn deferred : OrderedSet Quad) :
    AllGrounded { e with support, suspects, withdrawn, deferred } σ hidden doubted := by
  refine h.step_of_facts rfl rfl (fun _ _ hf => hf) (fun f _ hlost => ?_) fun q hhas _ hhid _ => ?_
  · exact ⟨hlost, And.intro⟩
  · exact Or.inl ⟨hhas, hhid⟩

/-- A supported quad that was hidden comes into view again. -/
theorem reveal (h : e.AllGrounded σ hidden doubted)
    (hl : Ledger clean e σ hidden awaited doubted') (hclean : clean) (hq : 0 < e.support.total q)
    (hhidden : ∀ x, hidden' x ↔ hidden x ∧ x ≠ q) : e.AllGrounded σ hidden' doubted := by
  refine h.step_of_facts rfl rfl (fun _ _ hf => hf) (fun f _ hlost => ?_) fun x hhas _ hhid _ => ?_
  · exact ⟨hlost, fun hhas hhid => ⟨hhas, fun hh => hhid ((hhidden f).1 hh).1⟩⟩
  · by_cases hx : x = q
    · subst hx
      exact Or.inr (hl.exists_match hclean hq)
    · exact Or.inl ⟨hhas, fun hh => hhid ((hhidden x).2 ⟨hh, hx⟩)⟩

theorem take_gained (h : e.AllGrounded σ hidden doubted)
    (hl : Ledger clean e σ hidden awaited doubted) (hclean : clean) (hq : 0 < e.support.total q) :
    e.AllGrounded (σ.take (.gained q)) hidden doubted := by
  have hkeep : ∀ f, .lost f ∉ e.queue (σ.take (.gained q)) → .lost f ∉ e.queue σ := by
    intro f hnot hlost
    rw [hl.queue_take] at hnot
    exact hnot (List.mem_append_left _ hlost)
  refine h.step_of_facts rfl rfl (fun _ _ hf => hf) (fun f _ hlost => ?_) fun x hhas _ hhid _ => ?_
  · refine ⟨hkeep f hlost, fun hhas hhid => ⟨?_, hhid⟩⟩
    rw [Store.has_take]
    exact Or.inl hhas
  · rw [Store.has_take] at hhas
    rcases hhas with hhas | heq
    · exact Or.inl ⟨hhas, hhid⟩
    · have hx : x = q := heq
      subst hx
      obtain ⟨r, t, hfires, hconcludes, hfacts⟩ := hl.exists_match hclean hq
      refine Or.inr ⟨r, t, hfires, hconcludes, fun f hf => ?_⟩
      rcases hfacts f hf with hlost | hview
      · rw [hl.queue_take]
        exact Or.inl (List.mem_append_left _ hlost)
      · exact Or.inr hview

theorem take_lost (h : e.AllGrounded σ hidden doubted)
    (hl : Ledger clean e σ hidden awaited doubted)
    (hother : ∀ x, x ≠ q → (hidden x ↔ hidden' x)) :
    e.AllGrounded (σ.take (.lost q)) hidden' doubted := by
  have hne : ∀ x, (σ.take (.lost q)).contents.Has x ↔ σ.contents.Has x ∧ x ≠ q := by
    intro x
    rw [Store.has_take]
    exact Iff.rfl
  refine h.step_of_facts rfl rfl (fun _ _ hf => hf) (fun f _ hlost => ?_) fun x hhas _ hhid _ => ?_
  · rw [hl.queue_take, List.mem_append, List.mem_singleton, Change.lost.injEq, not_or] at hlost
    obtain ⟨hqueue, hf⟩ := hlost
    refine ⟨hqueue, fun hhas hhid => ⟨(hne f).2 ⟨hhas, hf⟩, ?_⟩⟩
    rw [← hother f hf]
    exact hhid
  · obtain ⟨hhas, hx⟩ := (hne x).1 hhas
    exact Or.inl ⟨hhas, fun hh => hhid ((hother x hx).1 hh)⟩

theorem take_base (h : e.AllGrounded σ hidden doubted)
    (hl : Ledger clean e σ hidden awaited doubted) (hc : c.value.graph ≠ e.graph) :
    e.AllGrounded (σ.take c) hidden doubted := by
  have hiff : ∀ x, x.graph = e.graph → ((σ.take c).contents.Has x ↔ σ.contents.Has x) := by
    intro x hx
    have hne : x ≠ c.value := by
      rintro rfl
      exact hc hx
    rw [Store.has_take, Change.step_iff_of_ne hne]
  refine h.step_of_facts rfl rfl (fun _ _ hf => hf) (fun f hg hlost => ?_) fun x hhas hg hhid _ => ?_
  · rw [hl.queue_take, List.mem_append, not_or] at hlost
    exact ⟨hlost.1, fun hhas hhid => ⟨(hiff f hg).2 hhas, hhid⟩⟩
  · exact Or.inl ⟨(hiff x hg).1 hhas, hhid⟩

theorem drain (h : e.AllGrounded σ hidden doubted) {pending : List (Change Quad)}
    (hcontents : σ'.contents = σ.contents)
    (hqueue : ({ e with pending } : RuleEngine).queue σ' = e.queue σ) :
    AllGrounded { e with pending } σ' hidden doubted := by
  refine h.step_of_facts rfl rfl (fun _ _ hf => hf) (fun f _ hlost => ?_) fun q hhas _ hhid _ => ?_
  · rw [hqueue] at hlost
    rw [hcontents]
    exact ⟨hlost, And.intro⟩
  · rw [hcontents] at hhas
    exact Or.inl ⟨hhas, hhid⟩

/-- The networks are told of a change; conclusions that lose a match come into doubt. -/
theorem told (hidden' : Quad → Prop) (h : e.AllGrounded σ hidden doubted) {seen : (Quad → Prop) → Prop}
    {gains loses : Rule → Token → Prop} (hs : e.graph = e'.graph ∧ e.evaluator = e'.evaluator)
    (hev : e.Evolves e' gains loses) (htracks : e'.Tracks fun _ => stepped c seen)
    (hkept : ∀ f, hidden f → hidden' f) (hview : ∀ f, hidden' f → hidden f ∨ c = .lost f)
    (hqueue : ∀ f, .lost f ∈ e.queue σ → .lost f ∈ e'.queue σ ∨ c = .lost f) :
    AllGrounded e' σ hidden' (fun q => doubted q ∨ q ∈ e'.support.lowered) := by
  have hcarries : e.CarriesOver e' σ σ hidden hidden' doubted
      fun q => doubted q ∨ q ∈ e'.support.lowered := by
    constructor
    · exact hs.1.symm
    · exact hs.2.symm
    · intro r t q hf hc hdoubt
      rcases hev.kept r t hf with hf' | ⟨_, hlow⟩
      · exact hf'
      · exact absurd (Or.inr (hlow q hc)) hdoubt
    · intro r t hf f hmem hg hlost
      obtain ⟨held, ⟨before, _, rfl⟩, hheld⟩ := htracks.isHeld_of_fires hf
      have hne : c ≠ .lost f := by
        rintro rfl
        exact (hheld f hmem).2 rfl
      refine ⟨fun hl => ?_, fun hhas hhid => ⟨hhas, fun hh => ?_⟩⟩
      · exact (hqueue f hl).elim hlost hne
      · exact (hview f hh).elim hhid hne
    · exact fun q _ _ hdoubt hd => hdoubt (Or.inl hd)
  exact h.step hcarries fun q hhas _ hhid _ => Or.inl ⟨hhas, fun hh => hhid (hkept q hh)⟩

end AllGrounded

end Entail.RuleEngine
