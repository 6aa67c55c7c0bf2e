import Entail.Proofs.Queries.Engine
/-!
# Requests to a query engine

Following a query, leaving it and executing one, from an engine that is up to date with what it has
seen: none of them faults, each is answered, and the engine is up to date again.
-/

namespace Entail

namespace Query

variable {q : Query}

theorem compile_of_problem? {p : String} (h : q.condition.problem? = some p) :
    q.compile = .error (.invalidQuery p) := by
  rw [compile, Network.compile, h]

theorem compile_of_valid (h : q.condition.problem? = none) : ∃ n, q.compile = .ok n := by
  rw [compile, Network.compile, h]
  exact ⟨_, rfl⟩

end Query

namespace QueryEngine

variable {e e' : QueryEngine} {held : Quad → Prop} {seen : Contents} {σ : Store} {q : Query}

/-! ## Seats -/

section Seats

variable {listeners : OrderedMap Nat ConditionKey} {key : ConditionKey} {i : QueryInstance}
  {l : Nat} {instances : OrderedMap ConditionKey QueryInstance}

private theorem Seated.join (h : Seated listeners instances) (hnew : listeners.get? l = none)
    (hi : ∀ l', l' ∈ i.listeners ↔ listeners.get? l' = some key) (hnodup : i.listeners.Nodup) :
    Seated (listeners.insert l key)
      (instances.insert key { i with listeners := i.listeners ++ [l] }) where
  nodup key' j hj := by
    rw [OrderedMap.get?_insert] at hj
    split at hj
    · obtain rfl := Option.some_inj.1 hj
      refine List.nodup_append'.2 ⟨hnodup, List.nodup_singleton l, fun l' hl' hl => ?_⟩
      rw [List.mem_singleton.1 hl, hi, hnew] at hl'
      cases hl'
    · exact h.nodup key' j hj
  mem_iff l' key' := by
    rw [OrderedMap.get?_insert, OrderedMap.get?_insert]
    by_cases hkey : key = key'
    · subst hkey
      by_cases hl : l = l'
      · simp [hl]
      · simp [hl, Ne.symm hl, hi]
    · by_cases hl : l = l'
      · subst hl
        simp [hkey, ← h.mem_iff, hnew]
      · simp [hkey, hl, h.mem_iff]

private theorem get?_withoutListener (hi : instances.get? key = some i) (key' : ConditionKey) :
    (withoutListener instances key l).get? key' =
      if key = key' then
        if (i.listeners.filter fun k => k != l).isEmpty then none
        else some { i with listeners := i.listeners.filter fun k => k != l }
      else instances.get? key' := by
  simp only [withoutListener, hi]
  split
  · exact OrderedMap.get?_erase _ _ _
  · exact OrderedMap.get?_insert _ _ _ _

private theorem mem_withoutListener (hi : instances.get? key = some i) {l' : Nat}
    {key' : ConditionKey} :
    (∃ j, (withoutListener instances key l).get? key' = some j ∧ l' ∈ j.listeners) ↔
      (∃ j, instances.get? key' = some j ∧ l' ∈ j.listeners) ∧ ¬ (key = key' ∧ l' = l) := by
  rw [get?_withoutListener hi]
  by_cases hkey : key = key'
  · subst hkey
    have hfilter : l' ∈ i.listeners.filter (fun k => k != l) ↔ l' ∈ i.listeners ∧ l' ≠ l := by
      simp
    rw [if_pos rfl]
    split
    · rename_i hempty
      rw [List.isEmpty_iff.1 hempty] at hfilter
      simp only [List.not_mem_nil, false_iff] at hfilter
      simpa [hi] using hfilter
    · simp [hi]
  · simp [hkey]

private theorem Seated.leave (h : Seated listeners instances) (hl : listeners.get? l = some key) :
    Seated (listeners.erase l) (withoutListener instances key l) := by
  obtain ⟨i, hi, _⟩ := (h.mem_iff l key).1 hl
  refine ⟨fun key' j hj => ?_, fun l' key' => ?_⟩
  · rw [get?_withoutListener hi] at hj
    split at hj
    · split at hj
      · cases hj
      · obtain rfl := Option.some_inj.1 hj
        exact (h.nodup key i hi).filter _
    · exact h.nodup key' j hj
  · rw [OrderedMap.get?_erase, mem_withoutListener hi, ← h.mem_iff]
    by_cases hl' : l = l'
    · subst hl'
      simp [hl]
    · simp [hl', Ne.symm hl']

end Seats

/-! ## Following and leaving -/

private theorem Follows.instanceFor_spec {contents : Contents} (h : e.Follows contents.Has)
    (hindexed : contents.IsIndexed) {n : Network} (hcompile : q.compile = .ok n) :
    ∃ i, ∃ c : Condition, e.instanceFor contents q.condition.key n = .ok i ∧
      c.key = q.condition.key ∧ i.result.Follows e.evaluator c contents.Has ∧ i.listeners.Nodup ∧
      ∀ l, l ∈ i.listeners ↔ e.listeners.get? l = some q.condition.key := by
  cases hi : e.instances.get? q.condition.key with
  | some i =>
      obtain ⟨c, hc, hfollows⟩ := h.shared _ i hi
      refine ⟨i, c, by rw [instanceFor, hi], hc, hfollows, h.seated.nodup _ i hi, fun l => ?_⟩
      rw [h.seated.mem_iff, hi]
      simp
  | none =>
      obtain ⟨result, hprime, hfollows⟩ := LiveResult.prime_spec e.evaluator hcompile hindexed
      refine ⟨⟨result, []⟩, q.condition, ?_, rfl, hfollows, List.nodup_nil, fun l => ?_⟩
      · rw [instanceFor, hi]
        simp only [hprime, Result.ok_bind]
        rfl
      · rw [h.seated.mem_iff, hi]
        simp

private theorem Follows.join (h : e.Follows held) {key : ConditionKey} {i : QueryInstance}
    {c : Condition} (hc : c.key = key) (hresult : i.result.Follows e.evaluator c held)
    (hnodup : i.listeners.Nodup) (hmem : ∀ l, l ∈ i.listeners ↔ e.listeners.get? l = some key) :
    Follows { e with
      instances := e.instances.insert key { i with listeners := i.listeners ++ [e.nextListener] }
      listeners := e.listeners.insert e.nextListener key
      nextListener := e.nextListener + 1 } held where
  shared := OrderedMap.forall_get?_insert ⟨c, hc, hresult⟩ fun key j _ => h.shared key j
  cached := h.cached
  seated := h.seated.join (h.get?_of_le (Nat.le_refl _)) hmem hnodup
  lt_next := OrderedMap.forall_get?_insert (Nat.lt_succ_self _) fun l key _ hl =>
    Nat.lt_succ_of_lt (h.lt_next l key hl)

theorem register_of_problem? {p : String} (h : q.condition.problem? = some p) :
    e.register σ q = .ok ⟨e, σ, [], .error (.invalidQuery p)⟩ := by
  rw [register, Query.compile_of_problem? h]

/-- A new listener: the others hear what they have not heard yet, and the new one of every solution
there is. -/
theorem Follows.register_spec (h : e.Follows seen.Has) (hwatches : e.Watches seen σ)
    (hvalid : q.condition.problem? = none) :
    ∃ told e', e.register σ q =
        .ok ⟨e', (σ.drain e.subscription).2, told, .ok e.nextListener⟩ ∧
      e'.evaluator = e.evaluator ∧
      e'.listeners = e.listeners.insert e.nextListener q.condition.key ∧
      e'.nextListener = e.nextListener + 1 ∧ e'.Follows σ.contents.Has ∧
      e'.Watches σ.contents (σ.drain e.subscription).2 ∧
      (∀ l ≠ e.nextListener, e.listeners.get? l = none → heard l told = []) ∧
      (∀ l, ∀ c : Condition, e.listeners.get? l = some c.key →
        Change.Leads (heard l told) (c.IsSolution e.evaluator seen.Has)
          (c.IsSolution e.evaluator σ.contents.Has)) ∧
      Change.Leads (heard e.nextListener told) (fun _ => False)
        (q.condition.IsSolution e.evaluator σ.contents.Has) := by
  obtain ⟨n, hcompile⟩ := Query.compile_of_valid hvalid
  obtain ⟨told, e₁, hflush, _, hkeeps, hfollows, hwatches', htells⟩ := h.flush_spec hwatches
  obtain ⟨i, c, hi, hc, hresult, hnodup, hmem⟩ :=
    hfollows.instanceFor_spec hwatches.indexed hcompile
  have hnew : e.listeners.get? e.nextListener = none := h.get?_of_le (Nat.le_refl _)
  let replay := notify [e.nextListener] (i.result.solutions.toList.map .gained)
  have hreplay : heard e.nextListener replay = i.result.solutions.toList.map .gained :=
    heard_notify (List.nodup_singleton _) List.mem_cons_self
  have hquiet : ∀ l ≠ e.nextListener, heard l replay = [] :=
    fun l hl => heard_notify_of_not_mem fun hmem => hl (List.mem_singleton.1 hmem)
  have hsolutions : Gains (fun _ => False) (q.condition.IsSolution e.evaluator σ.contents.Has)
      i.result.solutions.toList := by
    refine ⟨i.result.solutions.nodup_toList, fun b => ?_, fun _ => False.elim⟩
    rw [hresult.mem_toList_iff, hkeeps.evaluator_eq, Condition.isSolution_iff_of_key hc]
    exact (and_iff_left id).symm
  have hjoined := hfollows.join hc hresult hnodup hmem
  rw [hkeeps.listeners_eq, hkeeps.nextListener_eq] at hjoined
  refine ⟨told ++ replay, _, ?_, ?_, ?_, ?_, hjoined,
    ⟨hwatches'.indexed, hwatches'.subscribed, hwatches'.contents_eq, hwatches'.effective⟩,
    fun l hl hnone => ?_, fun l c' hl => ?_, ?_⟩
  · have hi' : e₁.instanceFor (σ.drain e.subscription).2.contents q.condition.key n = .ok i := hi
    rw [register, hcompile]
    simp only [hflush, hi', Result.ok_bind, hkeeps.listeners_eq, hkeeps.nextListener_eq]
    rfl
  · exact hkeeps.evaluator_eq
  · rfl
  · rfl
  · rw [heard_append, htells.others l hnone, hquiet l hl]
    rfl
  · have hl' : l ≠ e.nextListener := by
      rintro rfl
      rw [hnew] at hl
      cases hl
    rw [heard_append, hquiet l hl', List.append_nil]
    exact htells.leads l c' hl
  · rw [heard_append, htells.others _ hnew, hreplay, List.nil_append]
    exact hsolutions.alters.leads

theorem Follows.unregister_spec (h : e.Follows held) (l : Nat) :
    (e.unregister l).1 = e.listeners.contains l ∧
      (e.unregister l).2.listeners = e.listeners.erase l ∧
      (e.unregister l).2.nextListener = e.nextListener ∧
      (e.unregister l).2.evaluator = e.evaluator ∧
      (e.unregister l).2.subscription = e.subscription ∧ (e.unregister l).2.Follows held := by
  cases hl : e.listeners.get? l with
  | none =>
      have hsame : e.unregister l = (false, e) := by rw [unregister, hl]
      rw [hsame, OrderedMap.contains, hl, OrderedMap.erase_of_get?_none hl]
      exact ⟨rfl, rfl, rfl, rfl, rfl, h⟩
  | some key =>
      have hleft : e.unregister l = (true, { e with
          listeners := e.listeners.erase l
          instances := withoutListener e.instances key l }) := by
        rw [unregister, hl]
      rw [hleft, OrderedMap.contains, hl]
      refine ⟨rfl, rfl, rfl, rfl, rfl, fun key' j hj => ?_, h.cached, h.seated.leave hl,
        fun l' key' hl' => ?_⟩
      · obtain ⟨i, hi, _⟩ := (h.seated.mem_iff l key).1 hl
        rw [get?_withoutListener hi] at hj
        split at hj
        · rename_i heq
          split at hj
          · cases hj
          · obtain rfl := Option.some_inj.1 hj
            exact heq ▸ h.shared key i hi
        · exact h.shared key' j hj
      · rw [OrderedMap.get?_erase] at hl'
        split at hl'
        · cases hl'
        · exact h.lt_next l' key' hl'

/-! ## Executing -/

private theorem Follows.withCache (h : e.Follows held) {cache : ResultCache Query LiveResult}
    (hcache : ResultCache.All (fun q result => q.condition.problem? = none ∧
      result.Follows e.evaluator q.condition held) cache.entries) :
    ({ e with cache } : QueryEngine).Follows held :=
  ⟨h.shared, hcache, h.seated, h.lt_next⟩

/-- Executing a query: whether its result is cached or not, a well-formed one is answered over the
store as it is, and an ill-formed one is refused. -/
theorem Follows.execute_spec (h : e.Follows seen.Has) (hwatches : e.Watches seen σ) (q : Query) :
    ∃ told e' answer, e.execute σ q = .ok ⟨e', (σ.drain e.subscription).2, told, answer⟩ ∧
      e.Keeps e' ∧ e'.Follows σ.contents.Has ∧
      e'.Watches σ.contents (σ.drain e.subscription).2 ∧ e.Tells told seen.Has σ.contents.Has ∧
      (∀ p, q.condition.problem? = some p → answer = .error (.invalidQuery p)) ∧
      (q.condition.problem? = none → ∃ bag, answer = .ok bag ∧
        q.condition.IsAnswer e.evaluator σ.contents.Has bag) := by
  obtain ⟨told, e₁, hflush, _, hkeeps, hfollows, hwatches', htells⟩ := h.flush_spec hwatches
  have hprobed := hfollows.cached.probe q
  have hframe : ∀ {cache : ResultCache Query LiveResult},
      ResultCache.All (fun q result => q.condition.problem? = none ∧
        result.Follows e₁.evaluator q.condition σ.contents.Has) cache.entries →
      e.Keeps { e₁ with cache } ∧ ({ e₁ with cache } : QueryEngine).Follows σ.contents.Has ∧
        ({ e₁ with cache } : QueryEngine).Watches σ.contents (σ.drain e.subscription).2 :=
    fun hcache => ⟨hkeeps.trans ⟨rfl, rfl, rfl, rfl⟩, hfollows.withCache hcache,
      ⟨hwatches'.indexed, hwatches'.subscribed, hwatches'.contents_eq, hwatches'.effective⟩⟩
  cases hget : e₁.cache.get? q with
  | some result =>
      obtain ⟨hvalid, hresult⟩ := hfollows.cached.get? hget
      rw [hkeeps.evaluator_eq] at hresult
      obtain ⟨hkeeps', hfollows', hwatches''⟩ := hframe hprobed
      refine ⟨told, _, .ok result.solutions.bag, ?_, hkeeps', hfollows', hwatches'', htells,
        fun p hp => ?_, fun _ => ⟨_, rfl, hresult.counts.isAnswer⟩⟩
      · rw [execute, hflush]
        simp only [Result.ok_bind, ResultCache.probe, hget]
        rfl
      · rw [hvalid] at hp
        cases hp
  | none =>
      cases hproblem : q.condition.problem? with
      | some p =>
          obtain ⟨hkeeps', hfollows', hwatches''⟩ := hframe hprobed
          refine ⟨told, _, .error (.invalidQuery p), ?_, hkeeps', hfollows', hwatches'', htells,
            fun p' hp => ?_, nofun⟩
          · rw [execute, hflush]
            simp only [Result.ok_bind, ResultCache.probe, hget, Query.compile_of_problem? hproblem]
            rfl
          · rw [Option.some_inj.1 hp]
      | none =>
          obtain ⟨n, hcompile⟩ := Query.compile_of_valid hproblem
          obtain ⟨result, hprime, hresult⟩ :=
            LiveResult.prime_spec e₁.evaluator hcompile hwatches.indexed
          obtain ⟨hkeeps', hfollows', hwatches''⟩ := hframe (hprobed.insert ⟨hproblem, hresult⟩)
          rw [hkeeps.evaluator_eq] at hresult
          refine ⟨told, _, .ok result.solutions.bag, ?_, hkeeps', hfollows', hwatches'', htells,
            nofun, fun _ => ⟨_, rfl, hresult.counts.isAnswer⟩⟩
          have hprime' : LiveResult.prime e₁.evaluator (σ.drain e.subscription).2.contents n =
              .ok result := hprime
          rw [execute, hflush]
          simp only [Result.ok_bind, ResultCache.probe, hget, hcompile, hprime']
          rfl

end QueryEngine

end Entail
