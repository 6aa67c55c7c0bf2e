import Entail.Proofs.Rules.Slots
import Entail.Proofs.Store.Feed
/-!
# The ledger

What holds of an engine and its store between any two steps. The networks lag behind the store by the
changes that wait; quads that are hidden are in the store while the networks may be told that they are
gone; and whatever is supported is stored, or awaited.
-/

namespace Entail.RuleEngine

variable {clean : Prop} {e : RuleEngine} {σ : Store} {c : Change Quad} {q : Quad}
  {hidden hidden' awaited awaited' doubted doubted' held : Quad → Prop}

/-- The changes that the networks have not seen. -/
def queue (e : RuleEngine) (σ : Store) : List (Change Quad) :=
  e.pending ++ σ.feed.waiting e.subscription

/-- With the changes that wait, `held` becomes what the store has, save for hidden quads. These are
not in it if the history is clean; a network that was made while a pass was cut short may have seen
them. -/
def Sees (clean : Prop) (e : RuleEngine) (σ : Store) (hidden held : Quad → Prop) : Prop :=
  ∀ q, (¬ hidden q → (Change.stepAll (e.queue σ) held q ↔ σ.contents.Has q)) ∧
    (clean → hidden q → ¬ held q)

/-- The state between two steps. The doubted quads are those that lost a support. -/
structure Ledger (clean : Prop) (e : RuleEngine) (σ : Store) (hidden awaited doubted : Quad → Prop) :
    Prop where
  indexed : σ.contents.IsIndexed
  subscribed : σ.feed.buffers.contains e.subscription = true
  current : ∃ past, ∀ q, Change.stepAll (e.queue σ) past q ↔ σ.contents.Has q
  tracks : e.Tracks fun _ => e.Sees clean σ hidden
  raised_nil : e.support.raised = []
  lowered_nil : e.support.lowered = []
  hidden_stored : ∀ q, hidden q → σ.contents.Has q
  hidden_graph : ∀ q, hidden q → q.graph = e.graph
  doubted_graph : ∀ q, doubted q → q.graph = e.graph
  complete : ∀ q, 0 < e.support.total q → σ.contents.Has q ∨ awaited q

theorem Sees.has_or_lost (h : e.Sees clean σ hidden held) (hq : held q) :
    .lost q ∈ e.queue σ ∨ hidden q ∨ σ.contents.Has q := by
  by_cases hlost : .lost q ∈ e.queue σ
  · exact Or.inl hlost
  · right
    have hlast : Change.stepAll (e.queue σ) held q := by
      by_contra hnot
      exact hlost (Change.lost_mem_of_stepAll hq hnot)
    by_cases hhidden : hidden q
    · exact Or.inl hhidden
    · exact Or.inr (((h q).1 hhidden).1 hlast)

theorem Sees.view_or_lost (h : e.Sees clean σ hidden held) (hclean : clean) (hq : held q) :
    .lost q ∈ e.queue σ ∨ (σ.contents.Has q ∧ ¬ hidden q) := by
  by_cases hlost : .lost q ∈ e.queue σ
  · exact Or.inl hlost
  · right
    have hlast : Change.stepAll (e.queue σ) held q := by
      by_contra hnot
      exact hlost (Change.lost_mem_of_stepAll hq hnot)
    have hhidden : ¬ hidden q := fun hh => (h q).2 hclean hh hq
    exact ⟨((h q).1 hhidden).1 hlast, hhidden⟩

namespace Ledger

theorem conclusion (h : Ledger clean e σ hidden awaited doubted) (hq : 0 < e.support.total q) :
    q.IsConclusion e.graph := by
  obtain ⟨r, t, _, hc⟩ := h.tracks.total_pos_iff.1 hq
  exact hc.isConclusion

theorem queue_take (h : Ledger clean e σ hidden awaited doubted) (c : Change Quad) :
    e.queue (σ.take c) = e.queue σ ++ [c] := by
  unfold queue
  rw [Store.take, ChangeFeed.waiting_publish h.subscribed, List.append_assoc]

theorem stepAll_queue_take (h : Ledger clean e σ hidden awaited doubted) (c : Change Quad) :
    Change.stepAll (e.queue (σ.take c)) held = c.step (Change.stepAll (e.queue σ) held) := by
  rw [h.queue_take, Change.stepAll_append]
  rfl

/-! ## Other names for the same quads -/

theorem mono (h : Ledger clean e σ hidden awaited doubted) (hhidden : ∀ q, hidden q ↔ hidden' q)
    (hawaited : ∀ q, awaited q → awaited' q ∨ σ.contents.Has q ∨ e.support.total q = 0)
    (hdoubted : ∀ q, doubted' q → doubted q) :
    Ledger clean e σ hidden' awaited' doubted' := by
  obtain rfl : hidden = hidden' := by
    funext q
    exact propext (hhidden q)
  refine { h with
    doubted_graph := fun q hq => h.doubted_graph q (hdoubted q hq)
    complete := fun q hq => ?_ }
  rcases h.complete q hq with hstored | hawait
  · exact Or.inl hstored
  · rcases hawaited q hawait with hawait | hstored | hzero
    · exact Or.inr hawait
    · exact Or.inl hstored
    · omega

theorem relabel (h : Ledger clean e σ hidden awaited doubted)
    (suspects withdrawn deferred : OrderedSet Quad) :
    Ledger clean { e with suspects, withdrawn, deferred } σ hidden awaited doubted where
  indexed := h.indexed
  subscribed := h.subscribed
  current := h.current
  tracks := ⟨h.tracks.named, h.tracks.slots, h.tracks.accounts⟩
  raised_nil := h.raised_nil
  lowered_nil := h.lowered_nil
  hidden_stored := h.hidden_stored
  hidden_graph := h.hidden_graph
  doubted_graph := h.doubted_graph
  complete := h.complete

theorem weaken {clean' : Prop} (h : Ledger clean e σ hidden awaited doubted)
    (hweak : clean' → clean) : Ledger clean' e σ hidden awaited doubted := by
  have hsees : ∀ held, e.Sees clean σ hidden held → e.Sees clean' σ hidden held := by
    intro held hheld q
    obtain ⟨hview, hhid⟩ := hheld q
    exact ⟨hview, fun hc hq => hhid (hweak hc) hq⟩
  exact { h with tracks := h.tracks.mono fun _ => hsees }

/-! ## Changes of the store -/

private theorem sees_take (h : Ledger clean e σ hidden awaited doubted)
    (hother : ∀ q, q ≠ c.value → (hidden q ↔ hidden' q)) (hvalue : ¬ hidden' c.value)
    (hheld : e.Sees clean σ hidden held) : e.Sees clean (σ.take c) hidden' held := by
  intro q
  rw [h.stepAll_queue_take, Store.has_take]
  by_cases hq : q = c.value
  · subst hq
    rw [Change.step_value_iff, Change.step_value_iff]
    exact ⟨fun _ => Iff.rfl, fun _ hh => absurd hh hvalue⟩
  · rw [Change.step_iff_of_ne hq, Change.step_iff_of_ne hq, ← hother q hq]
    exact hheld q

theorem take (h : Ledger clean e σ hidden awaited doubted) (c : Change Quad)
    (hother : ∀ q, q ≠ c.value → (hidden q ↔ hidden' q)) (hvalue : ¬ hidden' c.value)
    (hcomplete : ∀ q, 0 < e.support.total q → c.step σ.contents.Has q ∨ awaited' q) :
    Ledger clean e (σ.take c) hidden' awaited' doubted where
  indexed := h.indexed.apply c
  subscribed := by
    rw [Store.take, ChangeFeed.contains_publish]
    exact h.subscribed
  current := by
    obtain ⟨past, hpast⟩ := h.current
    have hlast : Change.stepAll (e.queue σ) past = σ.contents.Has := by
      funext q
      exact propext (hpast q)
    refine ⟨past, fun q => ?_⟩
    rw [h.stepAll_queue_take, Store.has_take, hlast]
  tracks := by
    refine ⟨h.tracks.named, fun id slot hget => ?_, h.tracks.accounts⟩
    exact (h.tracks.slots id slot hget).mono fun held => sees_take h hother hvalue
  raised_nil := h.raised_nil
  lowered_nil := h.lowered_nil
  hidden_stored q hq := by
    have hne : q ≠ c.value := fun heq => hvalue (heq ▸ hq)
    rw [Store.has_take, Change.step_iff_of_ne hne]
    exact h.hidden_stored q ((hother q hne).2 hq)
  hidden_graph q hq := by
    have hne : q ≠ c.value := fun heq => hvalue (heq ▸ hq)
    exact h.hidden_graph q ((hother q hne).2 hq)
  doubted_graph := h.doubted_graph
  complete q hq := by
    rw [Store.has_take]
    exact hcomplete q hq

theorem take_gained (h : Ledger clean e σ hidden awaited doubted) (hq : ¬ σ.contents.Has q)
    (hawaited : ∀ x, awaited x → awaited' x ∨ x = q) :
    Ledger clean e (σ.take (.gained q)) hidden awaited' doubted := by
  refine h.take _ (fun x _ => Iff.rfl) (fun hh => hq (h.hidden_stored q hh)) fun x hx => ?_
  rcases h.complete x hx with hstored | hawait
  · exact Or.inl (Or.inl hstored)
  · rcases hawaited x hawait with hawait | rfl
    · exact Or.inr hawait
    · exact Or.inl (Or.inr rfl)

theorem take_lost (h : Ledger clean e σ hidden awaited doubted) (hq : e.support.total q = 0)
    (hother : ∀ x, x ≠ q → (hidden x ↔ hidden' x)) (hvalue : ¬ hidden' q) :
    Ledger clean e (σ.take (.lost q)) hidden' awaited doubted := by
  refine h.take _ hother hvalue fun x hx => ?_
  rcases h.complete x hx with hstored | hawait
  · refine Or.inl ⟨hstored, ?_⟩
    rintro rfl
    rw [hq] at hx
    exact Nat.lt_irrefl 0 hx
  · exact Or.inr hawait

theorem drain (h : Ledger clean e σ hidden awaited doubted) (hpending : e.pending = []) :
    ({ e with pending := (σ.drain e.subscription).1 } : RuleEngine).queue
        (σ.drain e.subscription).2 = e.queue σ ∧
      Ledger clean { e with pending := (σ.drain e.subscription).1 } (σ.drain e.subscription).2
        hidden awaited doubted := by
  have hqueue : ({ e with pending := (σ.drain e.subscription).1 } : RuleEngine).queue
      (σ.drain e.subscription).2 = e.queue σ := by
    have hwaiting : (σ.drain e.subscription).2.feed.waiting e.subscription = [] :=
      ChangeFeed.waiting_drain _ _
    unfold queue
    rw [hwaiting, hpending, List.append_nil]
    rfl
  have hsees : ∀ held, e.Sees clean σ hidden held →
      Sees clean { e with pending := (σ.drain e.subscription).1 } (σ.drain e.subscription).2
        hidden held := by
    intro held hheld
    unfold Sees
    rw [hqueue]
    exact hheld
  refine ⟨hqueue, ?_⟩
  constructor
  · exact h.indexed
  · exact ChangeFeed.contains_drain h.subscribed
  · rw [hqueue]
    exact h.current
  · refine ⟨h.tracks.named, fun id slot hget => ?_, h.tracks.accounts⟩
    exact (h.tracks.slots id slot hget).mono hsees
  · exact h.raised_nil
  · exact h.lowered_nil
  · exact h.hidden_stored
  · exact h.hidden_graph
  · exact h.doubted_graph
  · exact h.complete

/-- What the store has, without the hidden quads if the history is clean, is one of the sets that the
networks may have seen. -/
theorem sees_view (h : Ledger clean e σ hidden awaited doubted) :
    e.Sees clean σ hidden fun q => σ.contents.Has q ∧ (clean → ¬ hidden q) := by
  obtain ⟨past, hpast⟩ := h.current
  have heq : Change.stepAll (e.queue σ) past = σ.contents.Has := by
    funext q
    exact propext (hpast q)
  intro q
  refine ⟨fun hq => ?_, fun hc hq hview => hview.2 hc hq⟩
  have hview : (σ.contents.Has q ∧ (clean → ¬ hidden q)) ↔ σ.contents.Has q :=
    and_iff_left fun _ => hq
  rw [Change.stepAll_congr hview, ← heq]
  exact Change.stepAll_stepAll q

end Ledger

/-! ## Telling the networks of a change -/

theorem Ledger.told (h : Ledger clean e σ hidden awaited doubted) (c : Change Quad)
    (pending : List (Change Quad)) (suspects withdrawn deferred : OrderedSet Quad)
    (hcurrent : ∃ past, ∀ q, Change.stepAll (pending ++ σ.feed.waiting e.subscription) past q ↔
      σ.contents.Has q)
    (hsees : ∀ held, e.Sees clean σ hidden held →
      Sees clean { e with pending, suspects, withdrawn, deferred } σ hidden' (c.step held))
    (hstored : ∀ q, hidden' q → σ.contents.Has q) (hgraph : ∀ q, hidden' q → q.graph = e.graph) :
    ∃ failures e', runStage (RunState.injectInto c)
        { e with pending, suspects, withdrawn, deferred } e.slots.keys = .ok (failures, e') ∧
      SameBut { e with pending, suspects, withdrawn, deferred } e' ∧
      (∀ id, e'.rule? id = e.rule? id) ∧
      e.Evolves e' (e.Appears c fun _ => e.Sees clean σ hidden)
        (e.Vanishes c fun _ => e.Sees clean σ hidden) ∧
      e'.Tracks (fun _ => stepped c (e.Sees clean σ hidden)) ∧
      Ledger clean { e' with support := e'.support.settled } σ hidden'
        (fun q => awaited q ∨ q ∈ e'.support.raised)
        (fun q => doubted q ∨ q ∈ e'.support.lowered) := by
  have htracks : Tracks { e with pending, suspects, withdrawn, deferred }
      fun _ => e.Sees clean σ hidden :=
    ⟨h.tracks.named, h.tracks.slots, h.tracks.accounts⟩
  obtain ⟨failures, e', hrun, hsame, hrule, htracks', hevolves⟩ := htracks.inject c
  have hev : e.Evolves e' (e.Appears c fun _ => e.Sees clean σ hidden)
      (e.Vanishes c fun _ => e.Sees clean σ hidden) :=
    ⟨hevolves.raised_mono, hevolves.lowered_mono, hevolves.raised_from, hevolves.lowered_from,
      hevolves.raises, hevolves.kept⟩
  have hgraph' : e'.graph = e.graph := hsame.graph_eq
  have hsubscription : e'.subscription = e.subscription := hsame.subscription_eq
  have hqueue : e'.queue σ = pending ++ σ.feed.waiting e.subscription := by
    rw [queue, hsame.pending_eq, hsubscription]
  have hqueue' : queue { e' with support := e'.support.settled } σ =
      pending ++ σ.feed.waiting e.subscription := hqueue
  have hgraph'' : ({ e' with support := e'.support.settled } : RuleEngine).graph = e.graph := hgraph'
  refine ⟨failures, e', hrun, hsame, hrule, hev, htracks', ?_⟩
  constructor
  · exact h.indexed
  · change σ.feed.buffers.contains e'.subscription = true
    rw [hsubscription]
    exact h.subscribed
  · rw [hqueue']
    exact hcurrent
  · refine ⟨htracks'.named, fun id slot hget => ?_, htracks'.accounts.settled⟩
    refine (htracks'.slots id slot hget).mono ?_
    rintro held ⟨before, hbefore, rfl⟩ q
    rw [hqueue']
    exact hsees before hbefore q
  · rfl
  · rfl
  · exact hstored
  · rw [hgraph'']
    exact hgraph
  · intro q hq
    rw [hgraph'']
    rcases hq with hq | hq
    · exact h.doubted_graph q hq
    · rcases hev.lowered_from q hq with hq | ⟨r, t, _, hc⟩
      · rw [h.lowered_nil] at hq
        exact absurd hq List.not_mem_nil
      · exact hc.isConclusion.graph_eq
  · intro q hq
    rcases hev.raises q hq with hq | hq
    · rcases h.complete q hq with hstored | hawait
      · exact Or.inl hstored
      · exact Or.inr (Or.inl hawait)
    · exact Or.inr (Or.inr hq)

theorem Sees.propagate {rest : List (Change Quad)} (hpending : e.pending = c :: rest)
    (hnone : ∀ q, ¬ hidden q) (hheld : e.Sees clean σ hidden held) :
    Sees clean { e with pending := rest } σ hidden (c.step held) := by
  have hqueue : e.queue σ = c :: (rest ++ σ.feed.waiting e.subscription) := by
    rw [queue, hpending]
    rfl
  intro q
  have hq := (hheld q).1
  rw [hqueue] at hq
  exact ⟨hq, fun _ hh => absurd hh (hnone q)⟩

theorem Sees.withdraw (hhidden : ∀ x, hidden' x ↔ hidden x ∨ x = q)
    (hheld : e.Sees clean σ hidden held) : e.Sees clean σ hidden' ((Change.lost q).step held) := by
  intro x
  by_cases hx : x = q
  · subst hx
    have hgone : hidden' x := (hhidden x).2 (Or.inr rfl)
    exact ⟨fun hnot => absurd hgone hnot, fun _ _ hheld => hheld.2 rfl⟩
  · have hstep : (Change.lost q).step held x ↔ held x := Change.step_iff_of_ne hx
    rw [Change.stepAll_congr hstep, hhidden x, or_iff_left hx, hstep]
    exact hheld x

theorem Sees.reinstate (h : Ledger clean e σ hidden awaited doubted) (hq : hidden q)
    (hhidden : ∀ x, hidden' x ↔ hidden x ∧ x ≠ q) (hheld : e.Sees clean σ hidden held) :
    e.Sees clean σ hidden' ((Change.gained q).step held) := by
  intro x
  by_cases hx : x = q
  · subst hx
    have hnot : ¬ hidden' x := fun hh => ((hhidden x).1 hh).2 rfl
    have hhas := h.hidden_stored x hq
    obtain ⟨past, hpast⟩ := h.current
    have hgained : (Change.gained x).step held x := Or.inr rfl
    have hlast := Change.stepAll_of_stepAll ((hpast x).2 hhas) hgained
    exact ⟨fun _ => iff_of_true hlast hhas, fun _ hh => absurd hh hnot⟩
  · have hstep : (Change.gained q).step held x ↔ held x := Change.step_iff_of_ne hx
    rw [Change.stepAll_congr hstep, hhidden x, and_iff_left hx, hstep]
    exact hheld x

end Entail.RuleEngine
