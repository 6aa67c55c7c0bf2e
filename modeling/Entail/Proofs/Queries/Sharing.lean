import Entail.Proofs.Queries.Sessions
/-!
# Sharing

Live results are shared by condition key. A result that was compiled from another condition with the
same key counts the same solutions, has the same rows and reports the same changes.
-/

namespace Entail

variable {ev : Evaluator} {c d : Condition} {held : Quad → Prop} {r r' : LiveResult}

theorem LiveResult.Follows.solutions_eq (h : r.Follows ev c held) (h' : r'.Follows ev d held)
    (hkey : c.key = d.key) : r.solutions = r'.solutions :=
  h.counts.ext h'.counts fun _ _ => Condition.count_outputs_iff_of_key hkey

theorem LiveResult.Follows.outputs_eq (h : r.Follows ev c held) (h' : r'.Follows ev d held)
    (hkey : c.key = d.key) {a : Aggregation} (ha : c.aggregation = some a) :
    r.network.outputs = r'.network.outputs := by
  have ha' : d.aggregation = some a := (Condition.aggregation_eq_of_key hkey).symm.trans ha
  apply OrderedSet.ext_mem
  intro t
  rw [h.tracks.outputs, h'.tracks.outputs, h.condition_eq, h'.condition_eq,
    Condition.isOutput_of_some ha, Condition.isOutput_of_some ha', Condition.isRow_iff_of_key hkey]

/-- Keys are equal if the positive patterns are the same, as often as they occur, the negative
conjunctions are the same, as often as they occur and up to the order within each, and so are the
aggregations. Results of well-formed conditions with equal keys, no matter when each of them was
made, agree on the solutions, on how many matches support each, and on the rows; and what the one
result reports of a change are the changes of the other condition's solutions. So every listener of
an engine sits at a result that has the solutions of its own query, and hears of these. -/
theorem sharing_by_key_sound (ev : Evaluator) :
    (∀ c d : Condition, c.key = d.key ↔ c.positiveBag = d.positiveBag ∧
      c.negativeBag = d.negativeBag ∧ c.aggregation = d.aggregation) ∧
    (∀ (c d : Condition) (n m : Network), Network.compile c = .ok n → Network.compile d = .ok m →
      c.key = d.key → ∀ stored before after : List (Change Quad),
      let held := (Contents.empty.replay (stored ++ (before ++ after))).Has
      ∃ r r' last last', LiveResult.prime ev (Contents.empty.replay stored) n = .ok r ∧
        r.follow ev (before ++ after) = .ok last ∧
        LiveResult.prime ev (Contents.empty.replay (stored ++ before)) m = .ok r' ∧
        r'.follow ev after = .ok last' ∧
        last.solutions = last'.solutions ∧
        (∀ a, c.aggregation = some a → last.network.outputs = last'.network.outputs) ∧
        d.IsAnswer ev held last.solutions.bag ∧
        ∀ change : Change Quad, ∃ told next, last.update ev change = .ok (told, next) ∧
          Alters told (d.IsSolution ev held) (d.IsSolution ev (change.step held))) ∧
    ∀ (config : Config) (stored : List (Change Quad)) (feed : ChangeFeed)
      (requests : List QueryRequest),
      ∃ s, (QuerySession.start config ev stored feed).run requests = .ok s ∧
        ∀ l, s.engine.listeners.contains l = true → ∃ q i, s.asked.get? l = some q ∧
          s.engine.instances.get? q.condition.key = some i ∧ l ∈ i.listeners ∧
          i.result.network.condition.key = q.condition.key ∧
          (∀ b, b ∈ i.result.solutions.toList ↔ q.condition.IsSolution ev s.seen.Has b) ∧
          Change.Leads (heard l s.told) (fun _ => False)
            (q.condition.IsSolution ev s.seen.Has) := by
  refine ⟨fun c d => Condition.key_eq_iff, fun c d n m hc hd hkey stored before after => ?_,
    fun config stored feed requests => ?_⟩
  · have hheld : ∀ early late : List (Change Quad),
        Change.stepAll late (Contents.empty.replay early).Has =
          (Contents.empty.replay (early ++ late)).Has := by
      intro early late
      rw [Contents.replay_append]
      exact (Contents.has_replay late).symm
    intro held
    obtain ⟨r, hr, hfollows⟩ :=
      LiveResult.prime_spec ev hc (Contents.isIndexed_empty.replay stored)
    obtain ⟨last, hlast, hfollows⟩ := hfollows.follow_spec (before ++ after)
    obtain ⟨r', hr', hfollows'⟩ :=
      LiveResult.prime_spec ev hd (Contents.isIndexed_empty.replay (stored ++ before))
    obtain ⟨last', hlast', hfollows'⟩ := hfollows'.follow_spec after
    rw [hheld] at hfollows hfollows'
    rw [List.append_assoc] at hfollows'
    have hsolutions := hfollows.solutions_eq hfollows' hkey
    refine ⟨r, r', last, last', hr, hlast, hr', hlast', hsolutions,
      fun a ha => hfollows.outputs_eq hfollows' hkey ha, ?_, fun change => ?_⟩
    · rw [hsolutions]
      exact hfollows'.counts.isAnswer
    · obtain ⟨told, next, hupdate, _, halters⟩ := hfollows.update_spec change
      have hiff : ∀ {held : Quad → Prop} b, c.IsSolution ev held b ↔ d.IsSolution ev held b :=
        fun _ => Condition.isSolution_iff_of_key hkey
      exact ⟨told, next, hupdate, halters.congr hiff hiff⟩
  · obtain ⟨s, hrun, hholds⟩ :=
      (QuerySession.holds_start config ev stored feed).run_spec requests
    refine ⟨s, hrun, fun l hl => ?_⟩
    obtain ⟨key, hkey⟩ := OrderedMap.contains_iff.1 hl
    obtain ⟨q, hq, rfl, hleads⟩ := hholds.knows l key hkey
    obtain ⟨i, hi, hmem⟩ := (hholds.follows.seated.mem_iff l _).1 hkey
    obtain ⟨c, hc, hresult⟩ := hholds.follows.shared _ i hi
    rw [hholds.evaluator_eq] at hresult
    refine ⟨q, i, hq, hi, hmem, ?_, fun b => ?_, hleads⟩
    · rw [hresult.condition_eq, hc]
    · rw [hresult.mem_toList_iff, Condition.isSolution_iff_of_key hc]

/-- How many people everyone knows whose age is known and who are not hidden, and all of them in a
row; the patterns stand in one of two orders. -/
def census (swapped : Bool) : Condition :=
  let knows : Pattern := ⟨.any, .variable ⟨"x"⟩, .node (.iri "knows"), .variable ⟨"y"⟩⟩
  let age : Pattern := ⟨.any, .variable ⟨"y"⟩, .node (.iri "age"), .variable ⟨"z"⟩⟩
  { positives := if swapped then [age, knows] else [knows, age]
    negatives := [[⟨.any, .variable ⟨"y"⟩, .node (.iri "hidden"), .any⟩]]
    aggregation := some ⟨[⟨"x"⟩], [(⟨"n"⟩, ⟨.count, none, false⟩),
      (⟨"all"⟩, ⟨.groupConcat ", ", some (.variable ⟨"y"⟩), false⟩)]⟩ }

/-- The second listener joins the result that was made for the first one, with the patterns in the
other order. -/
theorem census_shared :
    let quad := fun s p o => Quad.mk (.iri "g") (.iri s) (.iri p) (.iri o)
    let stored := [.gained (quad "anna" "knows" "ben"), .gained (quad "ben" "age" "7")]
    let changes := [.gained (quad "anna" "knows" "carl"), .gained (quad "carl" "age" "8")]
    let requests : List QueryRequest := [.register ⟨0, census false⟩,
      .mutate (.insert (quad "carl" "age" "8")), .register ⟨1, census true⟩]
    census false ≠ census true ∧
    (∃ n m r r' last last', Network.compile (census false) = .ok n ∧
      Network.compile (census true) = .ok m ∧
      LiveResult.prime .standard (Contents.empty.replay stored) n = .ok r ∧
      r.follow .standard (changes ++ []) = .ok last ∧
      LiveResult.prime .standard (Contents.empty.replay (stored ++ changes)) m = .ok r' ∧
      r'.follow .standard [] = .ok last' ∧
      last.solutions = last'.solutions ∧ last.network.outputs = last'.network.outputs) ∧
    ∃ s q i, (QuerySession.start .default .standard stored .empty).run requests = .ok s ∧
      s.asked.get? 1 = some q ∧ s.engine.instances.get? q.condition.key = some i ∧
      1 ∈ i.listeners ∧ ∀ b, b ∈ i.result.solutions.toList ↔
        q.condition.IsSolution .standard s.seen.Has b := by
  intro quad stored changes requests
  obtain ⟨_, hresults, hsessions⟩ := sharing_by_key_sound .standard
  have hproblem : ∀ swapped, (census swapped).problem? = none := by decide +kernel
  have hcompile : ∀ swapped, ∃ n, Network.compile (census swapped) = .ok n :=
    fun swapped => Query.compile_of_valid (q := ⟨0, census swapped⟩) (hproblem swapped)
  have hkey : (census false).key = (census true).key := by
    rw [Condition.key_eq_iff]
    exact ⟨Multiset.coe_eq_coe.2 (.swap _ _ _), rfl, rfl⟩
  obtain ⟨n, hn⟩ := hcompile false
  obtain ⟨m, hm⟩ := hcompile true
  obtain ⟨r, r', last, last', hr, hlast, hr', hlast', hsolutions, houtputs, _⟩ :=
    hresults _ _ n m hn hm hkey stored changes []
  -- the second listener gets the number one
  obtain ⟨s₁, _, h₁⟩ := (QuerySession.holds_start .default .standard stored .empty).serve_spec
    (.register ⟨0, census false⟩)
  obtain ⟨s₂, _, h₂⟩ := h₁.holds.serve_spec (.mutate (.insert (quad "carl" "age" "8")))
  obtain ⟨s₃, _, h₃⟩ := h₂.holds.serve_spec (.register ⟨1, census true⟩)
  have hboard₁ := (h₁.board.unique (.join _ (hproblem false))).2
  have hboard₂ := (h₂.board.unique (.mutate _ _)).2
  have hboard₃ := (h₃.board.unique (.join _ (hproblem true))).2
  rw [hboard₁] at hboard₂
  rw [hboard₂] at hboard₃
  have hlistens : s₃.board.listeners.contains 1 = true := by
    rw [hboard₃]
    exact OrderedMap.contains_iff.2 ⟨_, OrderedMap.get?_insert_self _ _ _⟩
  have hrun₃ : (QuerySession.start .default .standard stored .empty).run requests = .ok s₃ := by
    rw [QuerySession.run, List.foldlM_cons, h₁.serve_eq, Result.ok_bind, List.foldlM_cons,
      h₂.serve_eq, Result.ok_bind, List.foldlM_cons, h₃.serve_eq]
    rfl
  obtain ⟨s, hrun, hlisteners⟩ := hsessions .default stored .empty requests
  obtain rfl : s₃ = s := Result.eq_of_eq_ok hrun₃ hrun
  obtain ⟨q, i, hq, hi, hmem, _, hmem', _⟩ := hlisteners 1 hlistens
  exact ⟨by decide +kernel, ⟨n, m, r, r', last, last', hn, hm, hr, hlast, hr', hlast', hsolutions,
    houtputs _ rfl⟩, s₃, q, i, hrun, hq, hi, hmem, hmem'⟩

end Entail
