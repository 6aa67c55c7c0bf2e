import Entail.Proofs.Condition.Keys
import Entail.Proofs.Queries.Cache
import Entail.Proofs.Queries.Live
import Entail.Proofs.Store.Published
import Entail.Queries.Engine
/-!
# Engines in step

What one change of the store, one flush and one request do to an engine whose live and cached results
are all up to date: they stay so, no result is missed or updated twice, and every listener hears of the
changes in the solutions of the condition it follows.
-/

namespace Entail

/-! ## What a listener hears -/

/-- The changes that the listener `l` was told of. -/
def heard (l : Nat) (told : List Notification) : List (Change Bindings) :=
  told.filterMap fun n => if n.listener = l then some n.change else none

section Heard

variable {l : Nat} {listeners : List Nat} {told more : List Notification}
  {changes : List (Change Bindings)}

@[simp] theorem heard_append : heard l (told ++ more) = heard l told ++ heard l more :=
  List.filterMap_append

private theorem heard_map (c : Change Bindings) (h : listeners.Nodup) :
    heard l (listeners.map fun l => ⟨l, c⟩) = if l ∈ listeners then [c] else [] := by
  induction listeners with
  | nil => rfl
  | cons k rest ih =>
      obtain ⟨hnot, hrest⟩ := List.nodup_cons.1 h
      have hfirst : heard l (⟨k, c⟩ :: rest.map fun l => ⟨l, c⟩) =
          (if k = l then [c] else []) ++ heard l (rest.map fun l => ⟨l, c⟩) := by
        by_cases hk : k = l
        · simp [heard, hk]
        · simp [heard, hk]
      rw [List.map_cons, hfirst, ih hrest]
      by_cases hk : k = l
      · subst hk
        simp [hnot]
      · simp [hk, Ne.symm hk]

theorem heard_notify (h : listeners.Nodup) (hl : l ∈ listeners) :
    heard l (QueryEngine.notify listeners changes) = changes := by
  induction changes with
  | nil => rfl
  | cons c rest ih =>
      have hcons : QueryEngine.notify listeners (c :: rest) =
          (listeners.map fun l => ⟨l, c⟩) ++ QueryEngine.notify listeners rest :=
        List.flatMap_cons
      rw [hcons, heard_append, heard_map c h, if_pos hl, ih]
      rfl

theorem heard_notify_of_not_mem (hl : l ∉ listeners) :
    heard l (QueryEngine.notify listeners changes) = [] := by
  rw [heard, List.filterMap_eq_nil_iff]
  rintro ⟨k, c⟩ hmem
  obtain ⟨c', _, hmem⟩ := List.mem_flatMap.1 hmem
  obtain ⟨k', hk', heq⟩ := List.mem_map.1 hmem
  obtain ⟨rfl, rfl⟩ := Notification.mk.inj heq
  exact if_neg fun heq : k' = l => hl (heq ▸ hk')

end Heard

namespace QueryEngine

variable {e e' : QueryEngine} {held : Quad → Prop} {change : Change Quad}

/-! ## Live results -/

/-- Each listener sits at the live result under its key, once. -/
structure Seated (listeners : OrderedMap Nat ConditionKey)
    (instances : OrderedMap ConditionKey QueryInstance) : Prop where
  nodup : ∀ key i, instances.get? key = some i → i.listeners.Nodup
  mem_iff : ∀ l key, listeners.get? l = some key ↔
    ∃ i, instances.get? key = some i ∧ l ∈ i.listeners

private theorem Seated.replace {listeners : OrderedMap Nat ConditionKey}
    {instances : OrderedMap ConditionKey QueryInstance} (h : Seated listeners instances)
    {key : ConditionKey} {i : QueryInstance} (hi : instances.get? key = some i)
    (result : LiveResult) : Seated listeners (instances.insert key { i with result }) where
  nodup key' i' hi' := by
    rw [OrderedMap.get?_insert] at hi'
    split at hi'
    · obtain rfl := Option.some_inj.1 hi'
      exact h.nodup key i hi
    · exact h.nodup key' i' hi'
  mem_iff l key' := by
    rw [h.mem_iff, OrderedMap.get?_insert]
    split
    · rename_i heq
      subst heq
      simp [hi]
    · exact Iff.rfl

/-- The results under `keys` are those of conditions with these keys over the quads before the
change, the others over the quads after it. -/
private def Awaits (ev : Evaluator) (held : Quad → Prop) (change : Change Quad)
    (keys : List ConditionKey) (instances : OrderedMap ConditionKey QueryInstance) : Prop :=
  ∀ key i, instances.get? key = some i → ∃ c : Condition, c.key = key ∧
    (key ∈ keys → i.result.Follows ev c held) ∧
    (key ∉ keys → i.result.Follows ev c (change.step held))

private theorem updateInstance_spec {ev : Evaluator} {key : ConditionKey}
    {rest : List ConditionKey} {listeners : OrderedMap Nat ConditionKey}
    {instances : OrderedMap ConditionKey QueryInstance} (hnot : key ∉ rest)
    (hseated : Seated listeners instances) (h : Awaits ev held change (key :: rest) instances) :
    ∃ told instances', updateInstance ev change instances key = .ok (told, instances') ∧
      Seated listeners instances' ∧ Awaits ev held change rest instances' ∧
      (∀ l, listeners.get? l ≠ some key → heard l told = []) ∧
      ∀ l, ∀ c : Condition, c.key = key → listeners.get? l = some key →
        Alters (heard l told) (c.IsSolution ev held) (c.IsSolution ev (change.step held)) := by
  have hother : ∀ key' i, key' ≠ key → instances.get? key' = some i →
      ∃ c : Condition, c.key = key' ∧ (key' ∈ rest → i.result.Follows ev c held) ∧
        (key' ∉ rest → i.result.Follows ev c (change.step held)) := by
    intro key' i hne hi
    obtain ⟨c, hc, hbefore, hafter⟩ := h key' i hi
    rw [List.mem_cons, or_iff_right hne] at hbefore hafter
    exact ⟨c, hc, hbefore, hafter⟩
  cases hi : instances.get? key with
  | none =>
      refine ⟨[], instances, ?_, hseated, fun key' i hi' => hother key' i ?_ hi', fun _ _ => rfl,
        fun l c _ hl => ?_⟩
      · rw [updateInstance, hi]
      · rintro rfl
        rw [hi] at hi'
        cases hi'
      · obtain ⟨i, hi', _⟩ := (hseated.mem_iff l key).1 hl
        rw [hi] at hi'
        cases hi'
  | some i =>
      obtain ⟨c, hc, hbefore, _⟩ := h key i hi
      obtain ⟨changes, result, hupdate, hfollows, hchanges⟩ :=
        (hbefore List.mem_cons_self).update_spec change
      refine ⟨notify i.listeners changes, instances.insert key { i with result }, ?_,
        hseated.replace hi result, fun key' i' hi' => ?_, fun l hl => ?_, fun l c' hc' hl => ?_⟩
      · rw [updateInstance, hi]
        simp only [hupdate, Result.ok_bind]
        rfl
      · rw [OrderedMap.get?_insert] at hi'
        split at hi'
        · rename_i heq
          subst heq
          obtain rfl := Option.some_inj.1 hi'
          exact ⟨c, hc, fun hmem => absurd hmem hnot, fun _ => hfollows⟩
        · rename_i hne
          exact hother key' i' (Ne.symm hne) hi'
      · exact heard_notify_of_not_mem fun hmem => hl ((hseated.mem_iff l key).2 ⟨i, hi, hmem⟩)
      · obtain ⟨i', hi', hmem⟩ := (hseated.mem_iff l key).1 hl
        rw [hi] at hi'
        obtain rfl := Option.some_inj.1 hi'
        rw [heard_notify (hseated.nodup key i hi) hmem]
        -- the result may have been compiled from another condition with this key
        have hkey : c.key = c'.key := by
          rw [hc, hc']
        have hiff : ∀ {held : Quad → Prop} b, c.IsSolution ev held b ↔ c'.IsSolution ev held b :=
          fun _ => Condition.isSolution_iff_of_key hkey
        exact hchanges.congr hiff hiff

private theorem updateInstances_spec {ev : Evaluator} {keys : List ConditionKey}
    {listeners : OrderedMap Nat ConditionKey} {instances : OrderedMap ConditionKey QueryInstance}
    (hkeys : keys.Nodup) (hseated : Seated listeners instances)
    (h : Awaits ev held change keys instances) :
    ∃ told instances', runStage (updateInstance ev change) instances keys = .ok (told, instances') ∧
      Seated listeners instances' ∧ Awaits ev held change [] instances' ∧
      (∀ l, (∀ key ∈ keys, listeners.get? l ≠ some key) → heard l told = []) ∧
      ∀ l, ∀ c : Condition, c.key ∈ keys → listeners.get? l = some c.key →
        Alters (heard l told) (c.IsSolution ev held) (c.IsSolution ev (change.step held)) := by
  induction keys generalizing instances with
  | nil =>
      exact ⟨[], instances, rfl, hseated, h, fun _ _ => rfl,
        fun _ _ hc => absurd hc List.not_mem_nil⟩
  | cons key rest ih =>
      obtain ⟨hnot, hrest⟩ := List.nodup_cons.1 hkeys
      obtain ⟨first, instances₁, hfirst, hseated₁, hawaits₁, helsewhere, hhere⟩ :=
        updateInstance_spec hnot hseated h
      obtain ⟨more, instances₂, hmore, hseated₂, hawaits₂, hother, halters⟩ :=
        ih hrest hseated₁ hawaits₁
      refine ⟨first ++ more, instances₂, ?_, hseated₂, hawaits₂, fun l hl => ?_,
        fun l c hc hl => ?_⟩
      · exact runStage_cons hfirst hmore
      · rw [heard_append, helsewhere l (hl key List.mem_cons_self),
          hother l fun k hk => hl k (List.mem_cons_of_mem _ hk)]
        rfl
      · rw [heard_append]
        by_cases heq : c.key = key
        · subst heq
          have hlater : heard l more = [] := by
            refine hother l fun k hk heq => hnot ?_
            rw [hl, Option.some_inj] at heq
            rw [heq]
            exact hk
          rw [hlater, List.append_nil]
          exact hhere l c rfl hl
        · have hnone : heard l first = [] := by
            refine helsewhere l fun heq' => heq ?_
            rw [hl, Option.some_inj] at heq'
            exact heq'
          rw [hnone, List.nil_append]
          exact halters l c (List.mem_of_ne_of_mem heq hc) hl

/-- The cached results are those of well-formed queries over the quads that satisfy `held`. -/
private def Cached (ev : Evaluator) (held : Quad → Prop)
    (entries : List (CacheEntry Query LiveResult)) : Prop :=
  ResultCache.All (fun q result => q.condition.problem? = none ∧
    result.Follows ev q.condition held) entries

private theorem updateCached_spec {ev : Evaluator} {entries : List (CacheEntry Query LiveResult)}
    (h : Cached ev held entries) (change : Change Quad) :
    ∃ entries', updateCached ev change entries = .ok entries' ∧
      Cached ev (change.step held) entries' := by
  induction entries with
  | nil => exact ⟨[], rfl, fun _ hmem => absurd hmem List.not_mem_nil⟩
  | cons entry rest ih =>
      obtain ⟨⟨hproblem, hfollows⟩, hrest⟩ := List.forall_mem_cons.1 h
      obtain ⟨changes, value, hupdate, hvalue, _⟩ := hfollows.update_spec change
      obtain ⟨rest', hrun, hrest'⟩ := ih hrest
      refine ⟨{ entry with value } :: rest', ?_,
        List.forall_mem_cons.2 ⟨⟨hproblem, hvalue⟩, hrest'⟩⟩
      rw [updateCached, hupdate]
      simp only [Result.ok_bind, hrun]
      rfl

/-! ## Changes of the store -/

/-- Everything the engine keeps is up to date with the quads that satisfy `held`. -/
structure Follows (e : QueryEngine) (held : Quad → Prop) : Prop where
  shared : ∀ key i, e.instances.get? key = some i →
    ∃ c : Condition, c.key = key ∧ i.result.Follows e.evaluator c held
  cached : ResultCache.All (fun q result => q.condition.problem? = none ∧
    result.Follows e.evaluator q.condition held) e.cache.entries
  seated : Seated e.listeners e.instances
  lt_next : ∀ l key, e.listeners.get? l = some key → l < e.nextListener

theorem follows_of_empty (hinstances : e.instances = ∅) (hlisteners : e.listeners = ∅)
    (hcache : e.cache.entries = []) (held : Quad → Prop) : e.Follows held := by
  constructor
  · rw [hinstances]
    exact nofun
  · rw [hcache]
    exact fun _ he => absurd he List.not_mem_nil
  · rw [hinstances, hlisteners]
    exact ⟨nofun, fun _ _ => iff_of_false nofun fun ⟨_, hi, _⟩ => nomatch hi⟩
  · rw [hlisteners]
    exact nofun

theorem Follows.get?_of_le (h : e.Follows held) {l : Nat} (hl : e.nextListener ≤ l) :
    e.listeners.get? l = none := by
  cases hget : e.listeners.get? l with
  | none => rfl
  | some key => exact absurd (h.lt_next l key hget) (Nat.not_lt_of_le hl)

/-- The same engine but for its results and what they have taken in. -/
structure Keeps (e e' : QueryEngine) : Prop where
  evaluator_eq : e'.evaluator = e.evaluator
  subscription_eq : e'.subscription = e.subscription
  listeners_eq : e'.listeners = e.listeners
  nextListener_eq : e'.nextListener = e.nextListener

theorem Keeps.refl (e : QueryEngine) : e.Keeps e :=
  ⟨rfl, rfl, rfl, rfl⟩

theorem Keeps.trans {e'' : QueryEngine} (h : e.Keeps e') (h' : e'.Keeps e'') : e.Keeps e'' where
  evaluator_eq := h'.evaluator_eq.trans h.evaluator_eq
  subscription_eq := h'.subscription_eq.trans h.subscription_eq
  listeners_eq := h'.listeners_eq.trans h.listeners_eq
  nextListener_eq := h'.nextListener_eq.trans h.nextListener_eq

/-- One change of the store: every listener hears how the solutions of the condition it follows
change. -/
theorem Follows.receive_spec (h : e.Follows held) (change : Change Quad) :
    ∃ told e', e.receive change = .ok (told, e') ∧ e.Keeps e' ∧ e'.Follows (change.step held) ∧
      (∀ l, e.listeners.get? l = none → heard l told = []) ∧
      ∀ l, ∀ c : Condition, e.listeners.get? l = some c.key →
        Alters (heard l told) (c.IsSolution e.evaluator held)
          (c.IsSolution e.evaluator (change.step held)) := by
  have hawaits : Awaits e.evaluator held change e.instances.keys e.instances := by
    intro key i hi
    obtain ⟨c, hc, hfollows⟩ := h.shared key i hi
    have hmem : key ∈ e.instances.keys :=
      OrderedMap.mem_keys_iff.2 (OrderedMap.contains_iff.2 ⟨i, hi⟩)
    exact ⟨c, hc, fun _ => hfollows, fun hnot => absurd hmem hnot⟩
  obtain ⟨told, instances, hrun, hseated, hawaits', hother, halters⟩ :=
    updateInstances_spec e.instances.nodup_keys h.seated hawaits
  obtain ⟨entries, hcached, hentries⟩ := updateCached_spec h.cached change
  have hshared : ∀ key i, instances.get? key = some i →
      ∃ c : Condition, c.key = key ∧ i.result.Follows e.evaluator c (change.step held) := by
    intro key i hi
    obtain ⟨c, hc, _, hafter⟩ := hawaits' key i hi
    exact ⟨c, hc, hafter List.not_mem_nil⟩
  refine ⟨told, { e with instances, cache := { e.cache with entries } }, ?_, ⟨rfl, rfl, rfl, rfl⟩,
    ⟨hshared, hentries, hseated, h.lt_next⟩, fun l hl => hother l fun key _ => ?_,
    fun l c hl => halters l c ?_ hl⟩
  · rw [receive, hrun]
    simp only [Result.ok_bind, hcached]
    rfl
  · rw [hl]
    exact nofun
  · obtain ⟨i, hi, _⟩ := (h.seated.mem_iff l c.key).1 hl
    exact OrderedMap.mem_keys_iff.2 (OrderedMap.contains_iff.2 ⟨i, hi⟩)

/-- Each listener hears how the solutions of the condition it follows change on the way from the
quads `old` to the quads `new`, and nobody else hears anything. -/
structure Tells (e : QueryEngine) (told : List Notification) (old new : Quad → Prop) : Prop where
  others : ∀ l, e.listeners.get? l = none → heard l told = []
  leads : ∀ l, ∀ c : Condition, e.listeners.get? l = some c.key →
    Change.Leads (heard l told) (c.IsSolution e.evaluator old) (c.IsSolution e.evaluator new)

theorem Tells.append {told more : List Notification} {old mid new : Quad → Prop}
    (h : e.Tells told old mid) (hkeeps : e.Keeps e') (h' : e'.Tells more mid new) :
    e.Tells (told ++ more) old new where
  others l hl := by
    have hmore := h'.others l
    rw [hkeeps.listeners_eq] at hmore
    rw [heard_append, h.others l hl, hmore hl]
    rfl
  leads l c hl := by
    rw [heard_append]
    have hl' : e'.listeners.get? l = some c.key := by
      rw [hkeeps.listeners_eq]
      exact hl
    have hmore := h'.leads l c hl'
    rw [hkeeps.evaluator_eq] at hmore
    exact (h.leads l c hl).append hmore

theorem Follows.receiveAll_spec (h : e.Follows held) (changes : List (Change Quad)) :
    ∃ told e', runStage receive e changes = .ok (told, e') ∧ e.Keeps e' ∧
      e'.Follows (Change.stepAll changes held) ∧
      e.Tells told held (Change.stepAll changes held) := by
  induction changes generalizing e held with
  | nil => exact ⟨[], e, rfl, .refl e, h, fun _ _ => rfl, fun _ _ _ => Change.leads_nil _⟩
  | cons change rest ih =>
      obtain ⟨first, e₁, hfirst, hkeeps, hfollows, hother, halters⟩ := h.receive_spec change
      obtain ⟨more, e₂, hmore, hkeeps', hfollows', htells⟩ := ih hfollows
      have hfirst' : e.Tells first held (change.step held) :=
        ⟨hother, fun l c hl => (halters l c hl).leads⟩
      refine ⟨first ++ more, e₂, ?_, hkeeps.trans hkeeps', hfollows', hfirst'.append hkeeps htells⟩
      exact runStage_cons hfirst hmore

/-! ## Requests -/

/-- The changes of the store that the engine has not taken in yet. -/
def waiting (e : QueryEngine) (σ : Store) : List (Change Quad) :=
  σ.feed.waiting e.subscription

/-- What the engine has not taken in yet leads from `seen` to what is stored. -/
structure Watches (e : QueryEngine) (seen : Contents) (σ : Store) : Prop where
  indexed : σ.contents.IsIndexed
  subscribed : σ.feed.buffers.contains e.subscription = true
  contents_eq : σ.contents = seen.replay (e.waiting σ)
  effective : seen.AllEffective (e.waiting σ)

variable {seen : Contents} {σ : Store} {q : Query}

theorem Watches.announces {told : Nat → Prop} {changes : List (Change Quad)} {σ' : Store}
    (h : e.Watches seen σ) (hchanges : σ.Announces told changes σ') (hown : told e.subscription)
    (hindexed : σ'.contents.IsIndexed) : e.Watches seen σ' := by
  obtain ⟨hopen, hwaiting⟩ := hchanges.waiting _ hown h.subscribed
  have hall : e.waiting σ' = e.waiting σ ++ changes := hwaiting
  refine ⟨hindexed, hopen, ?_, ?_⟩
  · rw [hall, Contents.replay_append, ← h.contents_eq, hchanges.contents_eq]
  · rw [hall]
    exact h.effective.append (h.contents_eq ▸ hchanges.effective)

theorem watches_of_waiting_nil (hindexed : σ.contents.IsIndexed)
    (hopen : σ.feed.buffers.contains e.subscription = true) (hnone : e.waiting σ = []) :
    e.Watches σ.contents σ :=
  ⟨hindexed, hopen, by rw [hnone]; rfl, by rw [hnone]; trivial⟩

theorem Follows.flush_spec (h : e.Follows seen.Has) (hwatches : e.Watches seen σ) :
    ∃ told e', e.flush σ =
        .ok ⟨e', (σ.drain e.subscription).2, told, (e.waiting σ).length⟩ ∧
      runStage receive e (e.waiting σ) = .ok (told, e') ∧ e.Keeps e' ∧
      e'.Follows σ.contents.Has ∧ e'.Watches σ.contents (σ.drain e.subscription).2 ∧
      e.Tells told seen.Has σ.contents.Has := by
  obtain ⟨told, e', hrun, hkeeps, hfollows, htells⟩ := h.receiveAll_spec (e.waiting σ)
  have hheld : Change.stepAll (e.waiting σ) seen.Has = σ.contents.Has := by
    rw [hwatches.contents_eq, Contents.has_replay]
    rfl
  rw [hheld] at hfollows htells
  refine ⟨told, e', ?_, hrun, hkeeps, hfollows, ?_, htells⟩
  · have hrun' : runStage receive e (σ.drain e.subscription).1 = .ok (told, e') := hrun
    rw [flush]
    simp only [hrun', Result.ok_bind]
    rfl
  · refine watches_of_waiting_nil (σ := (σ.drain e.subscription).2) hwatches.indexed ?_ ?_
    · rw [hkeeps.subscription_eq]
      exact ChangeFeed.contains_drain hwatches.subscribed
    · rw [waiting, hkeeps.subscription_eq]
      exact ChangeFeed.waiting_drain _ _

end QueryEngine

end Entail
