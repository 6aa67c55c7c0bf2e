import Entail.Proofs.Network.Blocker
import Entail.Proofs.Network.Grouping
/-!
# Outputs

The outputs of a network are what comes out of its condition over the quads it was told of: the chain
of the positive patterns holds their matches, every blocker lets the unblocked ones pass, and the
grouping keeps the rows. Each update leads from the old outputs to the new ones.
-/

namespace Entail

variable {ev : Evaluator} {c : Condition} {held held' : Quad → Prop} {u : Update}
  {bound : OrderedSet Variable}

namespace Condition

/-- A token for which the positive patterns match held quads. -/
def IsFound (c : Condition) (held : Quad → Prop) (t : Token) : Prop :=
  t.IsHeld held ∧ Bindings.join? ∅ c.positives t.facts = some t.bindings

theorem IsFound.contains {t : Token} (h : c.IsFound held t) {v : Variable}
    (hv : v ∈ c.positiveVariables) : t.bindings.contains v = true := by
  rw [Bindings.contains_iff_of_join? h.2]
  exact Or.inr (mem_positiveVariables.1 hv)

end Condition

namespace Partial

private theorem exists_matches_root_iff {t : Token} :
    (∃ p, Matches (fun s => s = .root) held c.positives p ∧ p.token = t) ↔ c.IsFound held t := by
  constructor
  · rintro ⟨p, hp, rfl⟩
    have hjoin := hp.join
    rw [Joins, hp.seed] at hjoin
    exact ⟨hp.held, hjoin⟩
  · rintro ⟨hheld, hjoin⟩
    exact ⟨⟨.root, t.bindings, t.facts⟩, ⟨rfl, hheld, hjoin⟩, rfl⟩

private theorem token_injective {p r : Partial} (hp : p.seed = .root) (hr : r.seed = .root)
    (h : p.token = r.token) : p = r := by
  cases p
  cases r
  simp_all [token]

private theorem gains_tokens {S S' : Partial → Prop} {found : List Partial}
    (h : Gains S S' found) (hseed : ∀ p, S' p → p.seed = .root) :
    Gains (fun t => ∃ p, S p ∧ p.token = t) (fun t => ∃ p, S' p ∧ p.token = t)
      (found.map token) := by
  have hfound : ∀ p ∈ found, p.seed = .root := fun p hp => hseed p ((h.mem_iff p).1 hp).1
  refine ⟨?_, fun t => ?_, fun t => ?_⟩
  · exact h.nodup.map_on fun p hp r hr heq => token_injective (hfound p hp) (hfound r hr) heq
  · rw [List.mem_map]
    constructor
    · rintro ⟨p, hp, rfl⟩
      obtain ⟨hnew, hold⟩ := (h.mem_iff p).1 hp
      refine ⟨⟨p, hnew, rfl⟩, ?_⟩
      rintro ⟨r, hr, heq⟩
      exact hold (token_injective (hseed r (h.kept r hr)) (hseed p hnew) heq ▸ hr)
    · rintro ⟨⟨p, hp, rfl⟩, hold⟩
      exact ⟨p, (h.mem_iff p).2 ⟨hp, fun hr => hold ⟨p, hr, rfl⟩⟩, rfl⟩
  · rintro ⟨p, hp, rfl⟩
    exact ⟨p, h.kept p hp, rfl⟩

private theorem gains_isFound {old next : Quad → Prop} {found : List Partial}
    (h : Gains (Matches (fun s => s = .root) old c.positives)
      (Matches (fun s => s = .root) next c.positives) found) :
    Gains (c.IsFound old) (c.IsFound next) (found.map token) :=
  (gains_tokens h fun _ hp => hp.seed).congr (fun _ => exists_matches_root_iff)
    fun _ => exists_matches_root_iff

end Partial

namespace Network

/-! ## Several blockers -/

/-- The tokens of `upstream` that none of the conjunctions blocks. -/
def Unblocked (upstream : Token → Prop) (held : Quad → Prop) (conjunctions : List (List Pattern))
    (t : Token) : Prop :=
  upstream t ∧ ∀ conjunction ∈ conjunctions, ¬ Condition.IsBlocked held t.bindings conjunction

/-- Each blocker has received what the one before lets pass. -/
inductive Sifts (bound : OrderedSet Variable) (held : Quad → Prop) :
    (Token → Prop) → List (List Pattern) → List Blocker → Prop where
  | nil {upstream : Token → Prop} : Sifts bound held upstream [] []
  | cons {upstream : Token → Prop} {conjunction : List Pattern} {conjunctions : List (List Pattern)}
    {k : Blocker} {rest : List Blocker} :
    k.Holds bound conjunction upstream held →
    Sifts bound held (Blocker.Passes upstream held conjunction) conjunctions rest →
    Sifts bound held upstream (conjunction :: conjunctions) (k :: rest)

/-- On the way from `held` to `held'`, `f` turns the changes that a blocker receives into those it
passes on. -/
def Carries (f : Blocker → List (Change Token) → Except Fault (List (Change Token) × Blocker))
    (bound : OrderedSet Variable) (held held' : Quad → Prop) : Prop :=
  ∀ {k : Blocker} {conjunction : List Pattern} {upstream upstream' : Token → Prop}
    {incoming : List (Change Token)},
    k.Holds bound conjunction upstream held → Alters incoming upstream upstream' →
    JoinChain.Binds bound upstream' →
    ∃ out k', f k incoming = .ok (out, k') ∧ k'.Holds bound conjunction upstream' held' ∧
      Alters out (Blocker.Passes upstream held conjunction)
        (Blocker.Passes upstream' held' conjunction)

private theorem carries_receiveAll : Carries Blocker.receiveAll bound held held :=
  fun hk hincoming hbinds => hk.receiveAll_spec hincoming hbinds

private theorem carries_onInsert (q : Quad) :
    Carries (Blocker.onInsert q) bound held (Update.insert.apply held q) :=
  fun hk hincoming hbinds => hk.onInsert_spec q hincoming hbinds

private theorem carries_onRemove (q : Quad) :
    Carries (Blocker.onRemove q) bound held (Update.remove.apply held q) :=
  fun hk hincoming hbinds => hk.onRemove_spec q hincoming hbinds

private theorem unblocked_cons {upstream : Token → Prop} {conjunction : List Pattern}
    {conjunctions : List (List Pattern)} {t : Token} :
    Unblocked (Blocker.Passes upstream held conjunction) held conjunctions t ↔
      Unblocked upstream held (conjunction :: conjunctions) t := by
  unfold Unblocked Blocker.Passes
  rw [List.forall_mem_cons, and_assoc]

private theorem sift_spec {f : Blocker → List (Change Token) →
      Except Fault (List (Change Token) × Blocker)} (hf : Carries f bound held held')
    {upstream upstream' : Token → Prop} {conjunctions : List (List Pattern)} {ks : List Blocker}
    (h : Sifts bound held upstream conjunctions ks) {incoming : List (Change Token)}
    (hincoming : Alters incoming upstream upstream') (hbinds : JoinChain.Binds bound upstream') :
    ∃ out ks', sift f ks incoming = .ok (out, ks') ∧
      Sifts bound held' upstream' conjunctions ks' ∧
      Alters out (Unblocked upstream held conjunctions)
        (Unblocked upstream' held' conjunctions) := by
  induction h generalizing incoming upstream' with
  | nil =>
      refine ⟨incoming, [], rfl, .nil, hincoming.congr (fun t => ?_) fun t => ?_⟩
      · exact (and_iff_left nofun).symm
      · exact (and_iff_left nofun).symm
  | @cons upstream conjunction conjunctions k rest hk _ ih =>
      obtain ⟨passed, k', hrun, hk', halters⟩ := hf hk hincoming hbinds
      obtain ⟨out, rest', hrest, hrest', hout⟩ := ih halters fun t ht => hbinds t ht.1
      refine ⟨out, k' :: rest', ?_, .cons hk' hrest',
        hout.congr (fun _ => unblocked_cons) fun _ => unblocked_cons⟩
      rw [sift, hrun]
      simp only [hrest, Result.ok_bind]
      rfl

private theorem passes_of_none {conjunction : List Pattern} :
    Blocker.Passes (fun _ => False) held conjunction = fun _ => False := by
  funext _
  exact propext ⟨fun h => h.1, False.elim⟩

private theorem sifts_compiled (bound : OrderedSet Variable) (conjunctions : List (List Pattern)) :
    Sifts bound (fun _ => False) (fun _ => False) conjunctions
      (conjunctions.map (.ofPatterns bound)) := by
  induction conjunctions with
  | nil => exact .nil
  | cons conjunction rest ih =>
      refine .cons (Blocker.holds_ofPatterns bound conjunction) ?_
      rw [passes_of_none]
      exact ih

private theorem mapM_fill_spec {contents : Contents} (hindexed : contents.IsIndexed)
    {conjunctions : List (List Pattern)} {ks : List Blocker}
    (h : Sifts bound (fun _ => False) (fun _ => False) conjunctions ks) :
    ∃ ks', ks.mapM (Blocker.fill contents) = .ok ks' ∧
      Sifts bound (fun q => contents.contains q = true) (fun _ => False) conjunctions ks' := by
  generalize hnone : (fun _ : Token => False) = upstream at h
  induction h with
  | nil => exact ⟨[], rfl, .nil⟩
  | @cons upstream conjunction conjunctions k rest hk _ ih =>
      subst hnone
      obtain ⟨chain, hfill, hchain⟩ := hk.chain.fill_spec hindexed
      obtain ⟨rest', hrest, hrest'⟩ := ih passes_of_none.symm
      have htallies : Blocker.Tallies k.counts (fun _ => False)
          (Partial.Matches (fun _ => False) (fun q => contents.contains q = true) conjunction) :=
        ⟨nofun, fun t n hn => absurd (hk.tallies.count t n hn).1 id⟩
      refine ⟨⟨chain, k.counts⟩ :: rest', ?_, .cons ⟨hchain, hk.binds, htallies⟩ ?_⟩
      · rw [List.mapM_cons, Blocker.fill, hfill]
        simp only [hrest, Result.ok_bind]
        rfl
      · rw [passes_of_none] at hrest' ⊢
        exact hrest'

/-! ## The parts together -/

theorem isMatch_iff_unblocked {t : Token} :
    c.IsMatch held t ↔ Unblocked (c.IsFound held) held c.negatives t :=
  Condition.isMatch_iff_join?

/-- The grouping holds the matches, if there is one. -/
def Collects (ev : Evaluator) (c : Condition) (found : Token → Prop) : Option Grouping → Prop
  | none => c.aggregation = none
  | some g => ∃ a, c.aggregation = some a ∧ a.IsValid c.positiveVariables ∧ g.Holds ev a found

/-- What comes out of a condition if `found` holds its matches. -/
def Emits (ev : Evaluator) (c : Condition) (found : Token → Prop) : Token → Prop :=
  match c.aggregation with
  | none => found
  | some a => a.IsRow ev found

theorem emits_isMatch : Emits ev c (c.IsMatch held) = c.IsOutput ev held := by
  funext t
  unfold Emits Condition.IsOutput
  cases c.aggregation with
  | none => rfl
  | some a => rfl

theorem emits_none : Emits ev c (fun _ => False) = fun _ => False := by
  funext t
  unfold Emits
  cases c.aggregation with
  | none => rfl
  | some a =>
      refine propext (iff_of_false ?_ id)
      rintro ⟨key, members, hne, hmembers, _⟩
      obtain ⟨s, hs⟩ := OrderedSet.exists_mem_of_ne_empty hne
      exact ((hmembers s).1 hs).1

/-- The network was told of the quads that satisfy `held`, and of no others. -/
structure Tracks (n : Network) (ev : Evaluator) (held : Quad → Prop) : Prop where
  positive : n.positive.Holds (fun t => t = .root) held ∅ [] n.condition.positives
  blockers : Sifts n.condition.positiveVariables held (n.condition.IsFound held)
    n.condition.negatives n.blockers
  grouping : Collects ev n.condition (n.condition.IsMatch held) n.grouping
  outputs : ∀ t, t ∈ n.outputs ↔ n.condition.IsOutput ev held t

private theorem collect_spec {found found' : Token → Prop} {grouping : Option Grouping}
    (h : Collects ev c found grouping) {changes : List (Change Token)}
    (hchanges : Alters changes found found')
    (hbinds : ∀ t, found t ∨ found' t →
      ∀ v ∈ c.positiveVariables, t.bindings.contains v = true) :
    ∃ p grouping', collect ev changes grouping = .ok (p, grouping') ∧
      Collects ev c found' grouping' ∧ Alters p.changes (Emits ev c found) (Emits ev c found') := by
  unfold Emits
  cases grouping with
  | none =>
      have hnone : c.aggregation = none := h
      rw [hnone]
      exact ⟨⟨changes, []⟩, none, rfl, h, hchanges⟩
  | some g =>
      obtain ⟨a, ha, hvalid, hg⟩ := h
      rw [ha]
      have hgained : ∀ t, found t ∨ .gained t ∈ changes →
          ∀ v ∈ c.positiveVariables, t.bindings.contains v = true := by
        rintro t (hold | hmem)
        · exact hbinds t (Or.inl hold)
        · exact hbinds t (Or.inr ((hchanges.gained_iff t).1 hmem).1)
      obtain ⟨p, g', hrun, hg', halters⟩ := hg.receiveAll_spec hvalid hchanges.leads hgained
      refine ⟨p, some g', ?_, ⟨a, ha, hvalid, hg'⟩, halters⟩
      rw [collect, hrun]
      rfl

private theorem record_spec {outputs : OrderedSet Token} {old next : Token → Prop}
    {changes : List (Change Token)} (h : ∀ t, t ∈ outputs ↔ old t)
    (hchanges : Alters changes old next) :
    ∃ outputs', record outputs changes = .ok outputs' ∧ ∀ t, t ∈ outputs' ↔ next t := by
  induction changes generalizing outputs old with
  | nil =>
      refine ⟨outputs, rfl, fun t => ?_⟩
      rw [h t, hchanges.iff_of_nil t]
  | cons change rest ih =>
      obtain ⟨hfresh, hrest⟩ := hchanges.cons
      cases change with
      | gained t =>
          have hnot : t ∉ outputs := fun ht => hfresh ((h t).1 ht)
          have hnext : ∀ s, s ∈ outputs.insert t ↔ (Change.gained t).step old s := by
            intro s
            rw [OrderedSet.mem_insert, h, or_comm, eq_comm]
            rfl
          obtain ⟨outputs', hrecord, hout⟩ := ih hnext hrest
          refine ⟨outputs', ?_, hout⟩
          rw [record, if_neg hnot, hrecord]
      | lost t =>
          have hmem : t ∈ outputs := (h t).2 hfresh
          have hnext : ∀ s, s ∈ outputs.erase t ↔ (Change.lost t).step old s := by
            intro s
            rw [OrderedSet.mem_erase, h, and_comm, ne_comm]
            rfl
          obtain ⟨outputs', hrecord, hout⟩ := ih hnext hrest
          refine ⟨outputs', ?_, hout⟩
          rw [record, if_pos hmem, hrecord]

private theorem finish_spec {n : Network} {found : Token → Prop}
    (hgrouping : Collects ev n.condition found n.grouping)
    (houtputs : ∀ t, t ∈ n.outputs ↔ Emits ev n.condition found t)
    (hfound : ∀ t, found t → ∀ v ∈ n.condition.positiveVariables, t.bindings.contains v = true)
    {positive : JoinChain} {blockers : List Blocker} {changes : List (Change Token)}
    (hpositive : positive.Holds (fun t => t = .root) held ∅ [] n.condition.positives)
    (hblockers : Sifts n.condition.positiveVariables held (n.condition.IsFound held)
      n.condition.negatives blockers)
    (hchanges : Alters changes found (n.condition.IsMatch held)) :
    ∃ p n', n.finish ev positive blockers changes = .ok (p, n') ∧ n'.condition = n.condition ∧
      n'.Tracks ev held ∧
      Alters p.changes (Emits ev n.condition found) (n.condition.IsOutput ev held) := by
  have hbinds : ∀ t, found t ∨ n.condition.IsMatch held t →
      ∀ v ∈ n.condition.positiveVariables, t.bindings.contains v = true := by
    rintro t (ht | ht)
    · exact hfound t ht
    · exact fun v hv => (isMatch_iff_unblocked.1 ht).1.contains hv
  obtain ⟨p, grouping', hcollect, hgrouping', halters⟩ := collect_spec hgrouping hchanges hbinds
  rw [emits_isMatch] at halters
  obtain ⟨outputs', hrecord, houtputs'⟩ := record_spec houtputs halters
  refine ⟨p, { n with positive, blockers, grouping := grouping', outputs := outputs' }, ?_, rfl,
    ⟨hpositive, hblockers, hgrouping', houtputs'⟩, halters⟩
  rw [finish, hcollect]
  simp only [hrecord, Result.ok_bind]
  rfl

private theorem binds_isFound : JoinChain.Binds c.positiveVariables (c.IsFound held) :=
  fun _ ht _ hv => ht.contains hv

private theorem binds_root : JoinChain.Binds ∅ fun t => t = .root :=
  fun _ _ v hv => absurd hv (OrderedSet.not_mem_empty v)

private theorem Tracks.finish_spec {n : Network} (h : n.Tracks ev held) {positive : JoinChain}
    {blockers : List Blocker} {changes : List (Change Token)}
    (hpositive : positive.Holds (fun t => t = .root) held' ∅ [] n.condition.positives)
    (hblockers : Sifts n.condition.positiveVariables held' (n.condition.IsFound held')
      n.condition.negatives blockers)
    (hchanges : Alters changes (Unblocked (n.condition.IsFound held) held n.condition.negatives)
      (Unblocked (n.condition.IsFound held') held' n.condition.negatives)) :
    ∃ p n', n.finish ev positive blockers changes = .ok (p, n') ∧ n'.condition = n.condition ∧
      n'.Tracks ev held' ∧
      Alters p.changes (n.condition.IsOutput ev held) (n.condition.IsOutput ev held') := by
  have hmatches : Alters changes (n.condition.IsMatch held) (n.condition.IsMatch held') :=
    hchanges.congr (fun _ => isMatch_iff_unblocked.symm) fun _ => isMatch_iff_unblocked.symm
  have hbinds : ∀ t, n.condition.IsMatch held t →
      ∀ v ∈ n.condition.positiveVariables, t.bindings.contains v = true :=
    fun _ ht _ hv => (isMatch_iff_unblocked.1 ht).1.contains hv
  have houtputs := h.outputs
  rw [← emits_isMatch] at houtputs ⊢
  exact Network.finish_spec h.grouping houtputs hbinds hpositive hblockers hmatches

private theorem Tracks.insert_spec {n : Network} (h : n.Tracks ev held) (q : Quad) :
    ∃ p n', n.insert ev q = .ok (p, n') ∧ n'.condition = n.condition ∧
      n'.Tracks ev (Update.insert.apply held q) ∧
      Alters p.changes (n.condition.IsOutput ev held)
        (n.condition.IsOutput ev (Update.insert.apply held q)) := by
  obtain ⟨found, positive, hmeet, hpositive, hgains⟩ :=
    h.positive.meet_nil_spec binds_root .insert q
  have htokens := (Partial.gains_isFound hgains).alters
  rw [List.map_map] at htokens
  obtain ⟨changes, blockers, hsift, hblockers, halters⟩ :=
    sift_spec (carries_onInsert q) h.blockers htokens binds_isFound
  obtain ⟨p, n', hfinish, hn'⟩ := h.finish_spec hpositive hblockers halters
  refine ⟨p, n', ?_, hn'⟩
  rw [insert, JoinChain.insertFact, hmeet]
  have hsift' : sift (Blocker.onInsert q) n.blockers (found.map fun p => .gained p.token) =
      .ok (changes, blockers) := hsift
  simp only [hsift', Result.ok_bind]
  exact hfinish

private theorem Tracks.remove_spec {n : Network} (h : n.Tracks ev held) (q : Quad) :
    ∃ p n', n.remove ev q = .ok (p, n') ∧ n'.condition = n.condition ∧
      n'.Tracks ev (Update.remove.apply held q) ∧
      Alters p.changes (n.condition.IsOutput ev held)
        (n.condition.IsOutput ev (Update.remove.apply held q)) := by
  obtain ⟨found, positive, hmeet, hpositive, hgains⟩ :=
    h.positive.meet_nil_spec binds_root .remove q
  have htokens := (Partial.gains_isFound hgains).alters_lost
  rw [List.map_map] at htokens
  obtain ⟨changes, blockers, hsift, hblockers, halters⟩ :=
    sift_spec (carries_onRemove q) h.blockers htokens binds_isFound
  obtain ⟨p, n', hfinish, hn'⟩ := h.finish_spec hpositive hblockers halters
  refine ⟨p, n', ?_, hn'⟩
  have hsift' : sift (Blocker.onRemove q) n.blockers (found.map fun p => .lost p.token) =
      .ok (changes, blockers) := hsift
  rw [remove, JoinChain.removeFact, hmeet]
  simp only [hsift', Result.ok_bind]
  exact hfinish

/-- Whatever quad comes or goes, the network takes it in and reports how its outputs change. -/
theorem Tracks.update_spec {n : Network} (h : n.Tracks ev held) (change : Change Quad) :
    ∃ p n', n.update ev change = .ok (p, n') ∧ n'.condition = n.condition ∧
      n'.Tracks ev (change.step held) ∧
      Alters p.changes (n.condition.IsOutput ev held)
        (n.condition.IsOutput ev (change.step held)) := by
  cases change with
  | gained q => exact h.insert_spec q
  | lost q => exact h.remove_spec q

/-! ## Compilation and priming -/

theorem problem?_of_compile {n : Network} (h : compile c = .ok n) : c.problem? = none := by
  unfold compile at h
  split at h
  · cases h
  · assumption

theorem eq_of_compile {n : Network} (h : compile c = .ok n) : n = {
    condition := c
    positive := .ofPatterns ∅ c.positives
    blockers := c.negatives.map (.ofPatterns c.positiveVariables)
    grouping := c.aggregation.map .new
    outputs := ∅ } := by
  unfold compile at h
  split at h
  · cases h
  · exact (Except.ok.inj h).symm

theorem problem?_of_aggregation (h : c.problem? = none) {a : Aggregation}
    (ha : c.aggregation = some a) : a.problem? c.positiveVariables = none := by
  unfold Condition.problem? at h
  split at h
  · cases h
  · split at h
    · cases h
    · rw [ha] at h
      exact h

private theorem isValid_of_compile {n : Network} (h : compile c = .ok n) {a : Aggregation}
    (ha : c.aggregation = some a) : a.IsValid c.positiveVariables :=
  Aggregation.isValid_of_problem? (problem?_of_aggregation (problem?_of_compile h) ha)

/-- A network made for a condition takes in any contents; what comes out is new. -/
theorem prime_spec (ev : Evaluator) {n : Network} (h : compile c = .ok n) {contents : Contents}
    (hindexed : contents.IsIndexed) :
    ∃ p n', n.prime ev contents = .ok (p, n') ∧ n'.condition = c ∧
      n'.Tracks ev (fun q => contents.contains q = true) ∧
      Alters p.changes (fun _ => False)
        (c.IsOutput ev fun q => contents.contains q = true) := by
  have hgrouping : Collects ev n.condition (fun _ => False) n.grouping := by
    rw [eq_of_compile h]
    cases ha : c.aggregation with
    | none => exact ha
    | some a => exact ⟨a, ha, isValid_of_compile h ha, Grouping.holds_new ev a⟩
  have hroot : Update.insert.apply (fun _ => False) Token.root = fun t => t = .root := by
    funext t
    simp [Update.apply]
  obtain ⟨positive, hfill, hpositive⟩ :=
    (JoinChain.holds_ofPatterns ∅ c.positives).fill_spec hindexed
  obtain ⟨blockers, hmapM, hblockers⟩ :=
    mapM_fill_spec hindexed (sifts_compiled c.positiveVariables c.negatives)
  have hbound : ∀ v ∈ (∅ : OrderedSet Variable), Token.root.bindings.contains v = true :=
    fun v hv => absurd hv (OrderedSet.not_mem_empty v)
  obtain ⟨found, positive', hadd, hpositive', hgains⟩ :=
    hpositive.addSeed_spec (fun _ => False.elim) hbound id
  rw [hroot] at hpositive' hgains
  have htokens : Gains (fun _ => False) (c.IsFound fun q => contents.contains q = true)
      (found.map Partial.token) := by
    refine (Partial.gains_tokens hgains fun _ hp => hp.seed).congr (fun t => ?_)
      fun _ => Partial.exists_matches_root_iff
    refine iff_of_false ?_ id
    rintro ⟨_, hp, _⟩
    exact hp.seed
  have hincoming := htokens.alters
  rw [List.map_map] at hincoming
  obtain ⟨changes, blockers', hsift, hblockers', halters⟩ :=
    sift_spec carries_receiveAll hblockers hincoming binds_isFound
  have hmatches : Alters changes (fun _ => False)
      (c.IsMatch fun q => contents.contains q = true) := by
    refine halters.congr (fun t => ?_) fun _ => isMatch_iff_unblocked.symm
    exact iff_of_false (fun ht => ht.1) id
  have houtputs : ∀ t, t ∈ n.outputs ↔ Emits ev n.condition (fun _ => False) t := by
    intro t
    rw [emits_none, eq_of_compile h]
    exact iff_of_false (OrderedSet.not_mem_empty t) id
  have hcondition : n.condition = c := by rw [eq_of_compile h]
  have hfinish : ∃ p n', n.finish ev positive' blockers' changes = .ok (p, n') ∧
      n'.condition = n.condition ∧ n'.Tracks ev (fun q => contents.contains q = true) ∧
      Alters p.changes (Emits ev n.condition fun _ => False)
        (n.condition.IsOutput ev fun q => contents.contains q = true) := by
    refine finish_spec hgrouping houtputs (fun _ => False.elim) ?_ ?_ ?_
    · rw [hcondition]
      exact hpositive'
    · rw [hcondition]
      exact hblockers'
    · rw [hcondition]
      exact hmatches
  rw [hcondition, emits_none] at hfinish
  obtain ⟨p, n', hrun, hn'⟩ := hfinish
  refine ⟨p, n', ?_, hn'⟩
  have hsift' : sift Blocker.receiveAll blockers (found.map fun p => .gained p.token) =
      .ok (changes, blockers') := hsift
  have hpos : n.positive = .ofPatterns ∅ c.positives := by rw [eq_of_compile h]
  have hblk : n.blockers = c.negatives.map (.ofPatterns c.positiveVariables) := by
    rw [eq_of_compile h]
  rw [prime, hpos, hfill, Result.ok_bind, hblk, hmapM, Result.ok_bind, hadd]
  simp only [hsift', Result.ok_bind]
  exact hrun

end Network

end Entail
