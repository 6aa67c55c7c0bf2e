import Entail.Proofs.Queries.Sessions
/-!
# Listeners

What a listener was told, put together, is the set of solutions of its query over the store as the
engine last saw it. It is never told what it knows already, and for every single change of the store
it is told the difference between the solutions before and after that change.
-/

namespace Entail

namespace QueryEngine

variable {e : QueryEngine} {seen : Contents}

theorem Follows.receive_among (h : e.Follows seen.Has) (before after : List (Change Quad))
    (change : Change Quad) :
    ∃ told₁ e₁ told₂ e₂ told₃ e₃, runStage receive e before = .ok (told₁, e₁) ∧
      e₁.receive change = .ok (told₂, e₂) ∧
      runStage receive e (before ++ change :: after) = .ok (told₁ ++ (told₂ ++ told₃), e₃) ∧
      ∀ l, ∀ c : Condition, e.listeners.get? l = some c.key →
        Alters (heard l told₂) (c.IsSolution e.evaluator (seen.replay before).Has)
          (c.IsSolution e.evaluator (seen.replay (before ++ [change])).Has) := by
  have hbefore : Change.stepAll before seen.Has = (seen.replay before).Has :=
    (Contents.has_replay before).symm
  have hafter : change.step (seen.replay before).Has = (seen.replay (before ++ [change])).Has := by
    rw [Contents.replay_append]
    exact (Contents.has_replay [change]).symm
  obtain ⟨told₁, e₁, h₁, hkeeps, hfollows, _⟩ := h.receiveAll_spec before
  rw [hbefore] at hfollows
  obtain ⟨told₂, e₂, h₂, _, hfollows', _, halters⟩ := hfollows.receive_spec change
  obtain ⟨told₃, e₃, h₃, _⟩ := hfollows'.receiveAll_spec after
  have hrest : runStage receive e₁ (change :: after) = .ok (told₂ ++ told₃, e₃) :=
    runStage_cons h₂ h₃
  refine ⟨told₁, e₁, told₂, e₂, told₃, e₃, h₁, h₂, runStage_append h₁ hrest, fun l c hl => ?_⟩
  rw [← hafter, ← hkeeps.evaluator_eq]
  exact halters l c (hkeeps.listeners_eq ▸ hl)

end QueryEngine

namespace QuerySession

/-- After any requests and with any listener that is still there: what it was told, one change after
the other, leads from nothing to the solutions of its query over what the engine saw when it last
caught up. The changes that wait by now lead from there to what is stored, and each of them makes a
difference. When they are taken in, whichever request comes next, what the listener is told for one
of them is the difference between the solutions before and after it. -/
theorem listener_knows_solutions (config : Config) (ev : Evaluator) (stored : List (Change Quad))
    (feed : ChangeFeed) (requests : List QueryRequest) :
    ∃ s, (start config ev stored feed).run requests = .ok s ∧
      s.store.contents = s.seen.replay (s.engine.waiting s.store) ∧
      s.seen.AllEffective (s.engine.waiting s.store) ∧
      ∀ l, s.engine.listeners.contains l = true → ∃ q, s.asked.get? l = some q ∧
        Change.Leads (heard l s.told) (fun _ => False) (q.condition.IsSolution ev s.seen.Has) ∧
        ∀ before change after, s.engine.waiting s.store = before ++ change :: after →
          ∃ told₁ e₁ told₂ e₂ told₃ flushed,
            runStage QueryEngine.receive s.engine before = .ok (told₁, e₁) ∧
            e₁.receive change = .ok (told₂, e₂) ∧
            s.engine.flush s.store = .ok flushed ∧
            flushed.notifications = told₁ ++ (told₂ ++ told₃) ∧
            Alters (heard l told₂) (q.condition.IsSolution ev (s.seen.replay before).Has)
              (q.condition.IsSolution ev (s.seen.replay (before ++ [change])).Has) := by
  obtain ⟨s, hrun, hholds⟩ := (holds_start config ev stored feed).run_spec requests
  refine ⟨s, hrun, hholds.watches.contents_eq, hholds.watches.effective, fun l hl => ?_⟩
  obtain ⟨key, hkey⟩ := OrderedMap.contains_iff.1 hl
  obtain ⟨q, hq, rfl, hleads⟩ := hholds.knows l key hkey
  refine ⟨q, hq, hleads, fun before change after hwaiting => ?_⟩
  obtain ⟨told₁, e₁, told₂, e₂, told₃, e₃, h₁, h₂, hall, halters⟩ :=
    hholds.follows.receive_among before after change
  obtain ⟨told, e, hflush, hreceive, _⟩ := hholds.follows.flush_spec hholds.watches
  rw [hwaiting, hall] at hreceive
  obtain ⟨rfl, rfl⟩ := Prod.mk.inj (Except.ok.inj hreceive)
  rw [hholds.evaluator_eq] at halters
  exact ⟨told₁, e₁, told₂, e₂, told₃, _, h₁, h₂, hflush, rfl, halters l q.condition hkey⟩

/-- Who knows somebody. -/
def sociable : Query where
  identity := 0
  condition :=
    { positives := [⟨.any, .variable ⟨"x"⟩, .node (.iri "knows"), .any⟩]
      negatives := []
      aggregation := none }

/-- Anna knows Ben, gets to know Carl as well and forgets Ben: two quads in turn support the one
solution. -/
theorem listener_knows_sociable :
    let quad := fun s o => Quad.mk (.iri "g") (.iri s) (.iri "knows") (.iri o)
    ∃ s q told₁ e₁ told₂ e₂, (start .default .standard [.gained (quad "anna" "ben")] .empty).run
        [.register sociable, .mutate (.insert (quad "anna" "carl")),
          .mutate (.remove (quad "anna" "ben"))] = .ok s ∧
      s.asked.get? 0 = some q ∧
      Change.Leads (heard 0 s.told) (fun _ => False)
        (q.condition.IsSolution .standard s.seen.Has) ∧
      runStage QueryEngine.receive s.engine [.gained (quad "anna" "carl")] = .ok (told₁, e₁) ∧
      e₁.receive (.lost (quad "anna" "ben")) = .ok (told₂, e₂) ∧
      Alters (heard 0 told₂)
        (q.condition.IsSolution .standard (s.seen.replay [.gained (quad "anna" "carl")]).Has)
        (q.condition.IsSolution .standard (s.seen.replay
          [.gained (quad "anna" "carl"), .lost (quad "anna" "ben")]).Has) := by
  intro quad
  obtain ⟨s, hrun, _, _, hlisteners⟩ := listener_knows_solutions .default .standard
    [.gained (quad "anna" "ben")] .empty [.register sociable,
      .mutate (.insert (quad "anna" "carl")), .mutate (.remove (quad "anna" "ben"))]
  have heval : ((start .default .standard [.gained (quad "anna" "ben")] .empty).run
      [.register sociable, .mutate (.insert (quad "anna" "carl")),
        .mutate (.remove (quad "anna" "ben"))]).toOption.map
      (fun s => (s.engine.listeners.contains 0, s.engine.waiting s.store)) =
      some (true, [.gained (quad "anna" "carl"), .lost (quad "anna" "ben")]) := by
    decide +kernel
  rw [hrun] at heval
  obtain ⟨hlistens, hwaiting⟩ := Prod.mk.inj (Option.some_inj.1 heval)
  obtain ⟨q, hq, hleads, hsplit⟩ := hlisteners 0 hlistens
  obtain ⟨told₁, e₁, told₂, e₂, _, _, h₁, h₂, _, _, halters⟩ :=
    hsplit [.gained (quad "anna" "carl")] _ [] hwaiting
  exact ⟨s, q, told₁, e₁, told₂, e₂, hrun, hq, hleads, h₁, h₂, halters⟩

end QuerySession

end Entail
