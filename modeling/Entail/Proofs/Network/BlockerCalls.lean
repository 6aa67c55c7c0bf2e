import Entail.Proofs.Network.Blocker
import Entail.Proofs.Network.ChainCalls
/-!
# Calls of a blocker

Tokens and quads come and go in any order, and the tokens may come and go again within one call, as
long as only new tokens come and only known tokens go. Whatever happened, a blocker counts the matches
of its conjunction for each token that is there, and has passed on the tokens for which there are none;
what it passes on is again such a list of changes.
-/

namespace Entail

variable {held : Quad → Prop} {conjunction : List Pattern} {bound : OrderedSet Variable}

namespace BlockerCall

/-- The changes of the tokens in the calls. -/
def incomingOf (calls : List BlockerCall) : List (Change Token) :=
  calls.flatMap incoming

/-- The tokens that have come and not gone again. -/
def tokensOf (calls : List BlockerCall) : Token → Prop :=
  Change.stepAll (incomingOf calls) fun _ => False

/-- The quads that have come and not gone again. -/
def quadsOf (calls : List BlockerCall) : Quad → Prop :=
  Change.stepAll (calls.filterMap fact?) fun _ => False

/-- The tokens that come bind the variables of `bound`. -/
def Binds (bound : OrderedSet Variable) (x : BlockerCall) : Prop :=
  ∀ t, .gained t ∈ x.incoming → ∀ v ∈ bound, t.bindings.contains v = true

end BlockerCall

namespace Blocker

variable {k : Blocker} {upstream : Token → Prop} {t : Token}

theorem isMatch_iff_of_upstream (ht : upstream t) {p : Partial} :
    Partial.IsMatch (fun s => s = t) held conjunction p ↔
      Partial.Matches upstream held conjunction p ∧ p.seed = t := by
  rw [Partial.isMatch_iff_matches]
  constructor
  · rintro ⟨hseed, hheld, hjoin⟩
    exact ⟨⟨hseed.symm ▸ ht, hheld, hjoin⟩, hseed⟩
  · rintro ⟨⟨_, hheld, hjoin⟩, hseed⟩
    exact ⟨hseed, hheld, hjoin⟩

/-! ## Single calls -/

theorem Holds.receiveAll_leads (h : k.Holds bound conjunction upstream held)
    {incoming : List (Change Token)} (hfresh : Change.AllFresh incoming upstream)
    (hbinds : ∀ t, .gained t ∈ incoming → ∀ v ∈ bound, t.bindings.contains v = true) :
    ∃ out k', k.receiveAll incoming = .ok (out, k') ∧
      k'.Holds bound conjunction (Change.stepAll incoming upstream) held ∧
      Change.Leads out (Passes upstream held conjunction)
        (Passes (Change.stepAll incoming upstream) held conjunction) := by
  induction incoming generalizing k upstream with
  | nil => exact ⟨[], k, rfl, h, Change.leads_nil _⟩
  | cons c rest ih =>
      have ht : ∀ v ∈ bound, c.value.bindings.contains v = true := by
        cases c with
        | gained t => exact hbinds t List.mem_cons_self
        | lost t => exact h.binds t hfresh.1
      obtain ⟨out, k₁, h₁, hk₁, halters⟩ := h.receive_spec ht hfresh.1
      obtain ⟨more, k₂, h₂, hk₂, hleads⟩ :=
        ih hk₁ hfresh.2 fun t ht => hbinds t (List.mem_cons_of_mem c ht)
      exact ⟨out ++ more, k₂, runStage_cons h₁ h₂, hk₂, halters.leads.append hleads⟩

private theorem call_spec (h : k.Holds bound conjunction upstream held) (x : BlockerCall)
    (hfresh : Change.AllFresh x.incoming upstream) (hbinds : x.Binds bound) :
    ∃ out k', k.call x = .ok (out, k') ∧
      k'.Holds bound conjunction (Change.stepAll x.incoming upstream)
        (Change.stepAll x.fact?.toList held) ∧
      Change.Leads out (Passes upstream held conjunction)
        (Passes (Change.stepAll x.incoming upstream) (Change.stepAll x.fact?.toList held)
          conjunction) := by
  cases x with
  | received incoming => exact h.receiveAll_leads hfresh hbinds
  | inserted q incoming =>
      obtain ⟨blocked, k₁, h₁, hk₁, halters⟩ := h.factInserted_spec q
      obtain ⟨out, k₂, h₂, hk₂, hleads⟩ := hk₁.receiveAll_leads hfresh hbinds
      exact ⟨blocked ++ out, k₂, onInsert_eq h₁ h₂, hk₂, halters.leads.append hleads⟩
  | removed q incoming =>
      obtain ⟨out, k₁, h₁, hk₁, hleads⟩ := h.receiveAll_leads hfresh hbinds
      obtain ⟨released, k₂, h₂, hk₂, halters⟩ := hk₁.factRemoved_spec q
      exact ⟨out ++ released, k₂, onRemove_eq h₁ h₂, hk₂, hleads.append halters.leads⟩

/-! ## Runs -/

private theorem run_spec (h : k.Holds bound conjunction upstream held) {calls : List BlockerCall}
    (hfresh : Change.AllFresh (BlockerCall.incomingOf calls) upstream)
    (hbinds : ∀ x ∈ calls, x.Binds bound) :
    ∃ out k', runStage call k calls = .ok (out, k') ∧
      k'.Holds bound conjunction (Change.stepAll (BlockerCall.incomingOf calls) upstream)
        (Change.stepAll (calls.filterMap BlockerCall.fact?) held) ∧
      Change.Leads out (Passes upstream held conjunction)
        (Passes (Change.stepAll (BlockerCall.incomingOf calls) upstream)
          (Change.stepAll (calls.filterMap BlockerCall.fact?) held) conjunction) := by
  induction calls generalizing k upstream held with
  | nil => exact ⟨[], k, rfl, h, Change.leads_nil _⟩
  | cons x rest ih =>
      have hcons : BlockerCall.incomingOf (x :: rest) =
          x.incoming ++ BlockerCall.incomingOf rest := List.flatMap_cons
      rw [hcons, Change.allFresh_append_iff] at hfresh
      obtain ⟨out, k₁, h₁, hk₁, hleads⟩ := call_spec h x hfresh.1 (hbinds x List.mem_cons_self)
      obtain ⟨more, k₂, h₂, hk₂, hleads₂⟩ :=
        ih hk₁ hfresh.2 fun y hy => hbinds y (List.mem_cons_of_mem _ hy)
      rw [hcons, Change.stepAll_append, Change.stepAll_filterMap_cons]
      exact ⟨out ++ more, k₂, runStage_cons h₁ h₂, hk₂, hleads.append hleads₂⟩

theorem Holds.zero_iff_passes (h : k.Holds bound conjunction upstream held) :
    k.counts.get? t = some 0 ↔ Passes upstream held conjunction t := by
  constructor
  · intro hzero
    obtain ⟨ht, hcount⟩ := h.tallies.count t 0 hzero
    refine ⟨ht, fun hblocked => ?_⟩
    obtain ⟨p, hp⟩ := (isBlocked_iff_matches ht).1 hblocked
    exact IsCount.zero_iff.1 hcount p hp
  · rintro ⟨ht, hfree⟩
    obtain ⟨n, hn⟩ := h.tallies.counted t ht
    have hzero : IsCount (fun p => Partial.Matches upstream held conjunction p ∧ p.seed = t) 0 :=
      IsCount.zero_iff.2 fun p hp => hfree ((isBlocked_iff_matches ht).2 ⟨p, hp⟩)
    rw [hn, (h.tallies.count t n hn).2.unique hzero]

/-- The counts are those of the matches of the conjunction over the quads, for the tokens that are
there and no others, and `sent` leads to the tokens with the count zero, which nothing blocks. -/
structure Counts (k : Blocker) (conjunction : List Pattern) (upstream : Token → Prop)
    (held : Quad → Prop) (sent : List (Change Token)) : Prop where
  covers : ∀ t, k.counts.contains t = true ↔ upstream t
  count : ∀ t n, k.counts.get? t = some n ↔
    upstream t ∧ IsCount (Partial.IsMatch (fun s => s = t) held conjunction) n
  free : ∀ t, k.counts.get? t = some 0 ↔
    upstream t ∧ ¬ Condition.IsBlocked held t.bindings conjunction
  sent : Change.Leads sent (fun _ => False) fun t => k.counts.get? t = some 0

private theorem Holds.leads_zero {sent : List (Change Token)} {old : Token → Prop}
    (h : k.Holds bound conjunction upstream held)
    (hsent : Change.Leads sent old (Passes upstream held conjunction)) :
    Change.Leads sent old fun t => k.counts.get? t = some 0 :=
  ⟨hsent.fresh, fun t => (hsent.reaches t).trans h.zero_iff_passes.symm⟩

theorem Holds.counts {sent : List (Change Token)} (h : k.Holds bound conjunction upstream held)
    (hsent : Change.Leads sent (fun _ => False) (Passes upstream held conjunction)) :
    k.Counts conjunction upstream held sent := by
  have hcount : ∀ t n, k.counts.get? t = some n ↔
      upstream t ∧ IsCount (Partial.IsMatch (fun s => s = t) held conjunction) n := by
    intro t n
    constructor
    · intro hn
      obtain ⟨ht, hcount⟩ := h.tallies.count t n hn
      exact ⟨ht, hcount.congr fun _ => (isMatch_iff_of_upstream ht).symm⟩
    · rintro ⟨ht, hcount⟩
      obtain ⟨m, hm⟩ := h.tallies.counted t ht
      have hcount' := hcount.congr fun _ => isMatch_iff_of_upstream ht
      rw [hm, (h.tallies.count t m hm).2.unique hcount']
  refine ⟨fun t => ?_, hcount, fun _ => h.zero_iff_passes, h.leads_zero hsent⟩
  rw [OrderedMap.contains_iff]
  exact ⟨fun ⟨n, hn⟩ => (h.tallies.count t n hn).1, h.tallies.counted t⟩

private theorem incomingOf_concat (calls : List BlockerCall) (x : BlockerCall) :
    BlockerCall.incomingOf (calls ++ [x]) = BlockerCall.incomingOf calls ++ x.incoming := by
  rw [BlockerCall.incomingOf, List.flatMap_append, List.flatMap_cons, List.flatMap_nil,
    List.append_nil]
  rfl

/-- Whatever calls were made of a blocker, as long as only new tokens came and only known tokens went,
it counts the matches of its conjunction for the tokens that are there, and what it has passed on and
passes on next leads from each set of free tokens to the next one. -/
theorem counts_matches_and_passes_free (bound : OrderedSet Variable) (conjunction : List Pattern)
    (calls : List BlockerCall) (next : BlockerCall)
    (hfresh : Change.AllFresh (BlockerCall.incomingOf (calls ++ [next])) fun _ => False)
    (hbinds : ∀ x ∈ calls ++ [next], x.Binds bound) :
    ∃ sent k out k', runStage call (ofPatterns bound conjunction) calls = .ok (sent, k) ∧
      k.call next = .ok (out, k') ∧
      k.Counts conjunction (BlockerCall.tokensOf calls) (BlockerCall.quadsOf calls) sent ∧
      k'.Counts conjunction (BlockerCall.tokensOf (calls ++ [next]))
        (BlockerCall.quadsOf (calls ++ [next])) (sent ++ out) ∧
      Change.Leads out (fun t => k.counts.get? t = some 0) fun t => k'.counts.get? t = some 0 := by
  rw [incomingOf_concat, Change.allFresh_append_iff] at hfresh
  obtain ⟨sent, k, hrun, hk, hsent⟩ := run_spec (holds_ofPatterns bound conjunction) hfresh.1
    fun x hx => hbinds x (List.mem_append_left _ hx)
  obtain ⟨out, k', hcall, hk', hout⟩ := call_spec hk next hfresh.2
    (hbinds next (List.mem_append_right _ (List.mem_singleton_self next)))
  have hnone : Passes (fun _ => False) (fun _ => False) conjunction = fun _ => False := by
    funext _
    exact propext (iff_of_false (fun h => h.1) id)
  rw [hnone] at hsent
  have hzero : Passes (BlockerCall.tokensOf calls) (BlockerCall.quadsOf calls) conjunction =
      fun t => k.counts.get? t = some 0 := by
    funext _
    exact propext hk.zero_iff_passes.symm
  have htokens : BlockerCall.tokensOf (calls ++ [next]) =
      Change.stepAll next.incoming (BlockerCall.tokensOf calls) := by
    rw [BlockerCall.tokensOf, incomingOf_concat, Change.stepAll_append]
    rfl
  have hquads : BlockerCall.quadsOf (calls ++ [next]) =
      Change.stepAll next.fact?.toList (BlockerCall.quadsOf calls) :=
    Change.stepAll_filterMap_concat BlockerCall.fact? calls next _
  refine ⟨sent, k, out, k', hrun, hcall, hk.counts hsent, ?_, ?_⟩
  · rw [htokens, hquads]
    exact hk'.counts (hsent.append hout)
  · rw [← hzero]
    exact hk'.leads_zero hout

/-- Ben goes while he is being blocked, Carl comes and goes with the quad that blocked Anna, and Anna is
free again. -/
theorem counts_matches_of_blocked :
    let token := fun s => Token.mk (OrderedMap.empty.insert ⟨"x"⟩ (.iri s)) []
    let blocked := fun s => Quad.mk (.iri "g") (.iri s) (.iri "blocked") (.iri "yes")
    let bound := OrderedSet.empty.insert ⟨"x"⟩
    let conjunction := [Pattern.mk .any (.variable ⟨"x"⟩) (.node (.iri "blocked")) (.variable ⟨"y"⟩)]
    let calls := [.received [.gained (token "anna"), .gained (token "ben")],
      .inserted (blocked "anna") [], .inserted (blocked "ben") [.lost (token "ben")]]
    let next := .removed (blocked "anna") [.gained (token "carl"), .lost (token "carl")]
    Change.AllFresh (BlockerCall.incomingOf (calls ++ [next])) (fun _ => False) ∧
      (∀ x ∈ calls ++ [next], x.Binds bound) ∧
      ∃ sent k out k', runStage call (ofPatterns bound conjunction) calls = .ok (sent, k) ∧
        k.call next = .ok (out, k') ∧
        k.Counts conjunction (BlockerCall.tokensOf calls) (BlockerCall.quadsOf calls) sent ∧
        k.counts.get? (token "anna") = some 1 ∧
        out = [.gained (token "carl"), .lost (token "carl"), .gained (token "anna")] := by
  intro token blocked bound conjunction calls next
  have hab : token "ben" ≠ token "anna" := by decide
  have hac : token "carl" ≠ token "anna" := by decide
  have hbc : token "carl" ≠ token "ben" := by decide
  have hfresh : Change.AllFresh (BlockerCall.incomingOf (calls ++ [next])) fun _ => False := by
    refine ⟨id, ?_, Or.inr rfl, ?_, Or.inr rfl, trivial⟩
    · rintro (hnone | heq)
      · exact hnone
      · exact hab heq
    · rintro ⟨(hnone | heq) | heq, _⟩
      · exact hnone
      · exact hac heq
      · exact hbc heq
  have hcontains : ∀ x ∈ calls ++ [next], ∀ c ∈ x.incoming, ∀ v ∈ bound.toList,
      c.value.bindings.contains v = true := by
    decide +kernel
  have hbinds : ∀ x ∈ calls ++ [next], x.Binds bound := fun x hx t ht v hv =>
    hcontains x hx (.gained t) ht v (OrderedSet.mem_toList_iff.2 hv)
  have hout : ((runStage call (ofPatterns bound conjunction) calls).toOption.bind fun r =>
      (r.2.call next).toOption.map fun r' => (r.2.counts.get? (token "anna"), r'.1)) =
        some (some 1, [.gained (token "carl"), .lost (token "carl"), .gained (token "anna")]) := by
    decide +kernel
  obtain ⟨sent, k, out, k', hrun, hcall, hcounts, _⟩ :=
    counts_matches_and_passes_free bound conjunction calls next hfresh hbinds
  simp only [hrun, hcall, Except.toOption, Option.bind_some, Option.map_some, Option.some_inj,
    Prod.mk.injEq] at hout
  exact ⟨hfresh, hbinds, sent, k, out, k', hrun, hcall, hcounts, hout⟩

end Blocker

end Entail
