import Entail.Condition.Match
import Entail.Network.Grouping
import Entail.Proofs.Bindings.Merge
import Entail.Proofs.Network.Delta
import Entail.Proofs.Ordered
/-!
# Groupings

A grouping files every token under the nodes of its grouping variables and keeps one row for each
group whose aggregates can be computed. A row carries the key of its group, so rows of different
groups are different, and the changes passed on lead from the old rows to the new ones.
-/

namespace Entail

variable {ev : Evaluator} {a : Aggregation} {key : List Node}

namespace Aggregation

/-- What a valid aggregation satisfies over patterns that bind `bound`. -/
structure IsValid (a : Aggregation) (bound : OrderedSet Variable) : Prop where
  grouped : ∀ v ∈ a.groupBy, v ∈ bound
  fresh : ∀ e ∈ a.results, e.1 ∉ a.groupBy

private theorem resultProblem?_of_mem {bound : OrderedSet Variable} {taken : List Variable}
    {results : List (Variable × Aggregate)} (h : resultsProblem? bound taken results = none) :
    ∀ e ∈ results, ∃ before, taken ⊆ before ∧ resultProblem? bound before e.1 e.2 = none := by
  induction results generalizing taken with
  | nil => exact fun e he => absurd he List.not_mem_nil
  | cons first rest ih =>
      unfold resultsProblem? at h
      cases hproblem : resultProblem? bound taken first.1 first.2 with
      | some text =>
          rw [hproblem] at h
          cases h
      | none =>
          rw [hproblem] at h
          intro e he
          rcases List.mem_cons.1 he with rfl | he
          · exact ⟨taken, List.Subset.refl taken, hproblem⟩
          · obtain ⟨before, hbefore, he⟩ := ih h e he
            exact ⟨before, fun v hv => hbefore (List.mem_cons_of_mem _ hv), he⟩

/-- The grouping variables are bound, and nothing is wrong with any result, given the columns before
it. -/
theorem results_of_problem? {bound : OrderedSet Variable} (h : a.problem? bound = none) :
    (∀ v ∈ a.groupBy, v ∈ bound) ∧
      ∀ e ∈ a.results, ∃ before, a.groupBy ⊆ before ∧
        resultProblem? bound before e.1 e.2 = none := by
  unfold problem? at h
  split at h
  · cases h
  · split at h
    · cases h
    · rename_i hfind
      exact ⟨fun _ => OrderedSet.mem_of_find?_eq_none hfind, resultProblem?_of_mem h⟩

theorem isValid_of_problem? {bound : OrderedSet Variable} (h : a.problem? bound = none) :
    a.IsValid bound := by
  obtain ⟨hgrouped, hresults⟩ := results_of_problem? h
  refine ⟨hgrouped, fun e he hmem => ?_⟩
  obtain ⟨before, hbefore, hnone⟩ := hresults e he
  rw [resultProblem?, if_pos (hbefore hmem)] at hnone
  cases hnone

/-! ## Rows -/

private theorem get?_of_bindResults {members : List Bindings} {row out : Bindings}
    {results : List (Variable × Aggregate)} (h : bindResults ev members row results = .ok out)
    {v : Variable} (hv : ∀ e ∈ results, e.1 ≠ v) : out.get? v = row.get? v := by
  induction results generalizing row with
  | nil =>
      cases h
      rfl
  | cons e rest ih =>
      obtain ⟨value, _, hrest⟩ := Result.bind_eq_ok_iff.1 h
      rw [List.forall_mem_cons] at hv
      rw [ih hrest hv.2, OrderedMap.get?_insert, if_neg hv.1]

private theorem get?_foldl_insert {pairs : List (Variable × Node)} {b c : Bindings} {v : Variable}
    (hpairs : ∀ e ∈ pairs, b.get? e.1 = some e.2)
    (hc : c.get? v = b.get? v ∨ v ∈ pairs.map Prod.fst) :
    (pairs.foldl (fun m e => OrderedMap.insert m e.1 e.2) c).get? v = b.get? v := by
  induction pairs generalizing c with
  | nil => exact hc.resolve_right List.not_mem_nil
  | cons e rest ih =>
      rw [List.forall_mem_cons] at hpairs
      rw [List.foldl_cons]
      refine ih hpairs.2 ?_
      rw [OrderedMap.get?_insert]
      by_cases he : e.1 = v
      · subst he
        rw [if_pos rfl]
        exact Or.inl hpairs.1.symm
      · rw [if_neg he]
        rcases hc with hsame | hmem
        · exact Or.inl hsame
        · rw [List.map_cons, List.mem_cons, or_iff_right (Ne.symm he)] at hmem
          exact Or.inr hmem

private theorem get?_groupBindings {b : Bindings} (hkey : b.joinKey a.groupBy = .ok key)
    {v : Variable} (hv : v ∈ a.groupBy) : (a.groupBindings key).get? v = b.get? v := by
  rw [Bindings.joinKey_eq_ok_iff] at hkey
  have hlen : a.groupBy.length = key.length := by
    simpa using congrArg List.length hkey
  refine get?_foldl_insert (fun e he => ?_) (Or.inr ?_)
  · obtain ⟨i, hi, rfl⟩ := List.getElem_of_mem he
    rw [List.length_zip] at hi
    have hget := congrArg (fun l => l[i]?) hkey
    rw [List.getElem?_map, List.getElem?_map, List.getElem?_eq_getElem (by omega),
      List.getElem?_eq_getElem (by omega)] at hget
    rw [List.getElem_zip]
    exact Option.some_inj.1 hget
  · rw [List.map_fst_zip (by omega)]
    exact hv

private theorem contains_of_bindResults {members : List Bindings} {row out : Bindings}
    {results : List (Variable × Aggregate)} (h : bindResults ev members row results = .ok out)
    {v : Variable} :
    out.contains v = true ↔ row.contains v = true ∨ v ∈ results.map Prod.fst := by
  induction results generalizing row with
  | nil =>
      cases h
      simp
  | cons e rest ih =>
      obtain ⟨value, _, hrest⟩ := Result.bind_eq_ok_iff.1 h
      rw [ih hrest, OrderedMap.contains_insert, List.map_cons, List.mem_cons, or_assoc]
      exact or_left_comm

theorem contains_row {members : OrderedSet Token} {row : Token}
    (hrow : a.row ev key members = .ok row) (hlen : key.length = a.groupBy.length) {v : Variable} :
    row.bindings.contains v = true ↔ v ∈ a.outputVariables := by
  obtain ⟨bindings, hbind, hdone⟩ := Result.bind_eq_ok_iff.1 hrow
  obtain rfl : ⟨bindings, []⟩ = row := Except.ok.inj hdone
  rw [contains_of_bindResults hbind, groupBindings, OrderedMap.contains_ofList,
    List.map_fst_zip (Nat.le_of_eq hlen.symm), outputVariables, OrderedSet.mem_ofList,
    List.mem_append]

theorem joinKey_row (hresults : ∀ e ∈ a.results, e.1 ∉ a.groupBy)
    {members : OrderedSet Token} {row t : Token} (hrow : a.row ev key members = .ok row)
    (ht : t.bindings.joinKey a.groupBy = .ok key) : row.bindings.joinKey a.groupBy = .ok key := by
  obtain ⟨bindings, hbind, hdone⟩ := Result.bind_eq_ok_iff.1 hrow
  obtain rfl : ⟨bindings, []⟩ = row := Except.ok.inj hdone
  rw [Bindings.joinKey_eq_ok_iff] at ht ⊢
  rw [← ht]
  apply List.map_congr_left
  intro v hv
  have hother : ∀ e ∈ a.results, e.1 ≠ v := by
    rintro e he rfl
    exact hresults e he hv
  rw [get?_of_bindResults hbind hother]
  exact get?_groupBindings (Bindings.joinKey_eq_ok_iff.2 ht) hv

end Aggregation

namespace Grouping

variable {g : Grouping} {found : Token → Prop} {t : Token} {c : Change Token}

/-- The row that the members of a group have, if any. -/
def rowOf? (ev : Evaluator) (a : Aggregation) (key : List Node) (members : OrderedSet Token) :
    Option Token :=
  if members.isEmpty then none else (a.row ev key members).toOption

/-- The tokens that satisfy `found` are filed, each under its own key. -/
def Files (g : Grouping) (found : Token → Prop) : Prop :=
  ∀ key t, t ∈ (g.group key).members ↔ found t ∧ t.bindings.joinKey g.aggregation.groupBy = .ok key

/-- The rows that are out. -/
def Rows (g : Grouping) (t : Token) : Prop :=
  ∃ key, (g.group key).row = some t

/-- The tokens are filed and all rows are up to date. -/
structure Holds (g : Grouping) (ev : Evaluator) (a : Aggregation) (found : Token → Prop) : Prop where
  aggregation_eq : g.aggregation = a
  files : g.Files found
  current : ∀ key, (g.group key).row = rowOf? ev a key (g.group key).members

theorem holds_new (ev : Evaluator) (a : Aggregation) : (new a).Holds ev a fun _ => False where
  aggregation_eq := rfl
  files _ t := iff_of_false (OrderedSet.not_mem_empty t) fun h => h.1
  current _ := rfl

private theorem rowOf?_eq_some_iff {members : OrderedSet Token} {row : Token} :
    rowOf? ev a key members = some row ↔ members ≠ ∅ ∧ a.row ev key members = .ok row := by
  have htoOption : ∀ r : Except Error Token, r.toOption = some row ↔ r = .ok row := by
    rintro (e | r)
    · exact iff_of_false nofun nofun
    · rw [Except.ok.injEq]
      exact Option.some_inj
  unfold rowOf?
  split
  · rename_i hempty
    exact iff_of_false nofun fun h => h.1 (OrderedSet.isEmpty_iff.1 hempty)
  · rename_i hmembers
    have hne : members ≠ ∅ := fun heq => hmembers (OrderedSet.isEmpty_iff.2 heq)
    rw [htoOption]
    exact (and_iff_right hne).symm

theorem Holds.rows_iff (h : g.Holds ev a found) {row : Token} :
    g.Rows row ↔ a.IsRow ev found row := by
  have hfiles : ∀ key t, t ∈ (g.group key).members ↔
      found t ∧ a.groupBy.map t.bindings.get? = key.map some := by
    intro key t
    rw [h.files key t, h.aggregation_eq, Bindings.joinKey_eq_ok_iff]
  constructor
  · rintro ⟨key, hrow⟩
    rw [h.current key, rowOf?_eq_some_iff] at hrow
    exact ⟨key, (g.group key).members, hrow.1, hfiles key, hrow.2⟩
  · rintro ⟨key, members, hne, hmembers, hrow⟩
    have heq : members = (g.group key).members :=
      OrderedSet.ext_mem fun t => (hmembers t).trans (hfiles key t).symm
    refine ⟨key, ?_⟩
    rw [h.current key, rowOf?_eq_some_iff, ← heq]
    exact ⟨hne, hrow⟩

/-! ## Filing -/

private theorem group_insert (g : Grouping) (k key : List Node) (grp : Group) :
    ({ g with groups := g.groups.insert k grp } : Grouping).group key =
      if k = key then grp else g.group key := by
  rw [group, OrderedMap.get?_insert]
  split
  · rfl
  · rfl

/-- `g'` differs from `g` in the members of the groups in `touched` only. -/
structure IsFiledFrom (g' g : Grouping) (touched : List (List Node)) : Prop where
  aggregation_eq : g'.aggregation = g.aggregation
  row_eq : ∀ key, (g'.group key).row = (g.group key).row
  group_eq : ∀ key, key ∉ touched → g'.group key = g.group key

theorem Files.file_spec (h : g.Files found) (hfresh : c.IsFresh found)
    (hkey : c.value.bindings.joinKey g.aggregation.groupBy = .ok key) :
    ∃ g', g.file c = .ok ([key], g') ∧ g'.Files (c.step found) ∧ g'.IsFiledFrom g [key] := by
  have hfiled : c.value ∈ (g.group key).members ↔ found c.value := by
    rw [h key c.value]
    exact and_iff_left hkey
  have hmembers : ∃ members, g.file c = .ok ([key], { g with
        groups := g.groups.insert key { g.group key with members } }) ∧
      ∀ t, t ∈ members ↔ c.update.apply (fun x => x ∈ (g.group key).members) c.value t := by
    cases c with
    | gained t =>
        have hnot : t ∉ (g.group key).members := fun ht => hfresh (hfiled.1 ht)
        refine ⟨(g.group key).members.insert t, ?_, fun s => ?_⟩
        · rw [file, hkey, Result.ok_bind]
          simp only [if_neg hnot]
          rfl
        · rw [OrderedSet.mem_insert, or_comm, eq_comm]
          rfl
    | lost t =>
        have hmem : t ∈ (g.group key).members := hfiled.2 hfresh
        refine ⟨(g.group key).members.erase t, ?_, fun s => ?_⟩
        · rw [file, hkey, Result.ok_bind]
          simp only [if_pos hmem]
          rfl
        · rw [OrderedSet.mem_erase, and_comm, ne_comm]
          rfl
  obtain ⟨members, hfile, hmem⟩ := hmembers
  refine ⟨_, hfile, fun k t => ?_, rfl, fun k => ?_, fun k hk => ?_⟩
  · have hself : key = k → c.value = t → (c.update.apply (fun x => x ∈ (g.group key).members)
        c.value t ↔ c.step found t) := by
      rintro rfl rfl
      cases c with
      | gained s => exact iff_of_true (Or.inr rfl) (Or.inr rfl)
      | lost s => exact iff_of_false (fun hs => hs.2 rfl) fun hs => hs.2 rfl
    rw [group_insert]
    by_cases ht : t = c.value
    · subst ht
      by_cases hk : key = k
      · rw [if_pos hk, hmem c.value, hself hk rfl]
        rw [hk] at hkey
        exact (and_iff_left hkey).symm
      · rw [if_neg hk, h k c.value]
        have hno : ¬ c.value.bindings.joinKey g.aggregation.groupBy = .ok k := by
          rw [hkey, Except.ok.injEq]
          exact hk
        exact iff_of_false (fun hx => hno hx.2) fun hx => hno hx.2
    · rw [Change.step_iff_of_ne ht, ← h k t]
      by_cases hk : key = k
      · subst hk
        rw [if_pos rfl, hmem t]
        exact Update.apply_iff_of_ne ht
      · rw [if_neg hk]
  · rw [group_insert]
    split
    · rename_i hk
      rw [hk]
    · rfl
  · rw [group_insert, if_neg]
    rintro rfl
    exact hk (List.mem_singleton_self _)

private theorem IsFiledFrom.trans {g₁ g₂ : Grouping} {touched more : List (List Node)}
    (h₂ : g₂.IsFiledFrom g₁ more) (h₁ : g₁.IsFiledFrom g touched) :
    g₂.IsFiledFrom g (touched ++ more) where
  aggregation_eq := h₂.aggregation_eq.trans h₁.aggregation_eq
  row_eq key := (h₂.row_eq key).trans (h₁.row_eq key)
  group_eq key hkey := by
    rw [List.mem_append, not_or] at hkey
    rw [h₂.group_eq key hkey.2, h₁.group_eq key hkey.1]

theorem Files.runStage_file {found' : Token → Prop} (h : g.Files found)
    {incoming : List (Change Token)} (hincoming : Change.Leads incoming found found')
    (hkeyed : ∀ t, found t ∨ .gained t ∈ incoming →
      ∃ key, t.bindings.joinKey g.aggregation.groupBy = .ok key) :
    ∃ touched g', runStage file g incoming = .ok (touched, g') ∧ g'.Files found' ∧
      g'.IsFiledFrom g touched ∧
      ∀ key, key ∈ touched ↔
        ∃ c ∈ incoming, c.value.bindings.joinKey g.aggregation.groupBy = .ok key := by
  induction incoming generalizing g found with
  | nil =>
      obtain rfl : found = found' := by
        funext t
        exact propext (hincoming.reaches t)
      exact ⟨[], g, rfl, h, ⟨rfl, fun _ => rfl, fun _ _ => rfl⟩, by simp⟩
  | cons c rest ih =>
      have hvalue : found c.value ∨ .gained c.value ∈ c :: rest := by
        cases c with
        | gained t => exact Or.inr List.mem_cons_self
        | lost t => exact Or.inl hincoming.fresh.1
      obtain ⟨key, hkey⟩ := hkeyed c.value hvalue
      obtain ⟨g₁, h₁, hfiles, hfrom⟩ := h.file_spec hincoming.fresh.1 hkey
      have hkeyed₁ : ∀ t, c.step found t ∨ .gained t ∈ rest →
          ∃ key, t.bindings.joinKey g₁.aggregation.groupBy = .ok key := by
        intro t ht
        rw [hfrom.aggregation_eq]
        by_cases heq : t = c.value
        · subst heq
          exact ⟨key, hkey⟩
        · rw [Change.step_iff_of_ne heq] at ht
          rcases ht with hold | hgained
          · exact hkeyed t (Or.inl hold)
          · exact hkeyed t (Or.inr (List.mem_cons_of_mem c hgained))
      obtain ⟨touched, g₂, h₂, hfiles₂, hfrom₂, htouched⟩ :=
        ih hfiles ⟨hincoming.fresh.2, hincoming.reaches⟩ hkeyed₁
      refine ⟨[key] ++ touched, g₂, runStage_cons h₁ h₂, hfiles₂, hfrom₂.trans hfrom, fun k => ?_⟩
      rw [List.singleton_append, List.mem_cons, htouched k, hfrom.aggregation_eq,
        List.exists_mem_cons_iff, hkey, Except.ok.injEq, eq_comm]

/-! ## Refreshing -/

/-- The changes that replace one row by another. -/
def replacement (old row : Option Token) : List (Change Token) :=
  if row = old then [] else old.toList.map .lost ++ row.toList.map .gained

private theorem gained_mem_replacement {old row : Option Token} :
    .gained t ∈ replacement old row ↔ row = some t ∧ old ≠ some t := by
  unfold replacement
  split
  · rename_i heq
    rw [heq, and_not_self_iff]
    simp
  · rename_i hne
    have hmem : .gained t ∈ old.toList.map Change.lost ++ row.toList.map Change.gained ↔
        row = some t := by simp
    rw [hmem, iff_self_and]
    rintro rfl hold
    exact hne hold.symm

private theorem lost_mem_replacement {old row : Option Token} :
    .lost t ∈ replacement old row ↔ old = some t ∧ row ≠ some t := by
  unfold replacement
  split
  · rename_i heq
    rw [heq, and_not_self_iff]
    simp
  · rename_i hne
    have hmem : .lost t ∈ old.toList.map Change.lost ++ row.toList.map Change.gained ↔
        old = some t := by simp
    rw [hmem, iff_self_and]
    rintro rfl hrow
    exact hne hrow

private theorem nodup_replacement (old row : Option Token) :
    ((replacement old row).map Change.value).Nodup := by
  unfold replacement
  split
  · exact List.nodup_nil
  · rename_i hne
    cases old with
    | none => cases row <;> simp
    | some r =>
        cases row with
        | none => simp
        | some r' =>
            have hne' : r ≠ r' := fun heq => hne (congrArg some heq.symm)
            simpa [Change.value] using hne'

private theorem alters_replacements {before after : List Node → Option Token}
    {keys : List (List Node)} (hnodup : keys.Nodup)
    (hother : ∀ key, key ∉ keys → after key = before key)
    (hunique : ∀ t key key', before key = some t ∨ after key = some t →
      before key' = some t ∨ after key' = some t → key = key') :
    Alters (keys.flatMap fun key => replacement (before key) (after key))
      (fun t => ∃ key, before key = some t) (fun t => ∃ key, after key = some t) := by
  have hof : ∀ t k, t ∈ (replacement (before k) (after k)).map Change.value →
      before k = some t ∨ after k = some t := by
    intro t k hk
    rcases Alters.mem_values_iff.1 hk with hk | hk
    · exact Or.inr (gained_mem_replacement.1 hk).1
    · exact Or.inl (lost_mem_replacement.1 hk).1
  refine ⟨?_, fun t => ?_, fun t => ?_⟩
  · rw [List.map_flatMap, List.nodup_flatMap]
    refine ⟨fun key _ => nodup_replacement _ _, hnodup.imp ?_⟩
    intro key key' hne t ht ht'
    exact hne (hunique t key key' (hof t key ht) (hof t key' ht'))
  · simp only [List.mem_flatMap, gained_mem_replacement]
    constructor
    · rintro ⟨key, _, hafter, hbefore⟩
      refine ⟨⟨key, hafter⟩, fun ⟨key', hbefore'⟩ => hbefore ?_⟩
      rw [hunique t key key' (Or.inr hafter) (Or.inl hbefore')]
      exact hbefore'
    · rintro ⟨⟨key, hafter⟩, hnot⟩
      have hbefore : before key ≠ some t := fun h => hnot ⟨key, h⟩
      have hkey : key ∈ keys := by
        by_contra hkey
        rw [hother key hkey] at hafter
        exact hbefore hafter
      exact ⟨key, hkey, hafter, hbefore⟩
  · simp only [List.mem_flatMap, lost_mem_replacement]
    constructor
    · rintro ⟨key, _, hbefore, hafter⟩
      refine ⟨⟨key, hbefore⟩, fun ⟨key', hafter'⟩ => hafter ?_⟩
      rw [hunique t key key' (Or.inl hbefore) (Or.inr hafter')]
      exact hafter'
    · rintro ⟨⟨key, hbefore⟩, hnot⟩
      have hafter : after key ≠ some t := fun h => hnot ⟨key, h⟩
      have hkey : key ∈ keys := by
        by_contra hkey
        rw [hother key hkey] at hafter
        exact hafter hbefore
      exact ⟨key, hkey, hbefore, hafter⟩

/-- Refreshing a group brings its row up to date and leaves everything else as it is. -/
structure IsRefreshed (ev : Evaluator) (g' g : Grouping) (keys : List (List Node)) : Prop where
  aggregation_eq : g'.aggregation = g.aggregation
  members_eq : ∀ key, (g'.group key).members = (g.group key).members
  row_eq : ∀ key ∈ keys,
    (g'.group key).row = rowOf? ev g.aggregation key (g.group key).members
  group_eq : ∀ key, key ∉ keys → g'.group key = g.group key

private theorem refresh_spec (ev : Evaluator) (g : Grouping) (key : List Node) :
    (g.refresh ev key).1.changes =
        replacement (g.group key).row (rowOf? ev g.aggregation key (g.group key).members) ∧
      (g.refresh ev key).2.IsRefreshed ev g [key] := by
  have hself : ∀ k, k ∉ [key] → key ≠ k := fun k hk heq => hk (List.mem_singleton.2 heq.symm)
  unfold refresh
  cases hget : g.groups.get? key with
  | none =>
      have hgroup : g.group key = .empty := by rw [group, hget]; rfl
      rw [hgroup]
      refine ⟨rfl, rfl, fun _ => rfl, fun k hk => ?_, fun _ _ => rfl⟩
      rw [List.mem_singleton.1 hk, hgroup]
      rfl
  | some old =>
      have hgroup : g.group key = old := by rw [group, hget]; rfl
      rw [hgroup]
      by_cases hempty : old.members.isEmpty = true
      · have hrow : rowOf? ev g.aggregation key old.members = none := if_pos hempty
        have herase : ∀ k, ({ g with groups := g.groups.erase key } : Grouping).group k =
            if key = k then .empty else g.group k := by
          intro k
          rw [group, OrderedMap.get?_erase]
          split
          · rfl
          · rfl
        simp only [if_pos hempty]
        refine ⟨?_, rfl, fun k => ?_, fun k hk => ?_, fun k hk => ?_⟩
        · rw [hrow, replacement]
          cases old.row <;> rfl
        · rw [herase]
          split
          · rename_i hk
            rw [← hk, hgroup, OrderedSet.isEmpty_iff.1 hempty]
            rfl
          · rfl
        · rw [List.mem_singleton.1 hk, herase, if_pos rfl, hgroup, hrow]
          rfl
        · rw [herase, if_neg (hself k hk)]
      · have hrow : rowOf? ev g.aggregation key old.members =
            (g.aggregation.row ev key old.members).toOption := if_neg hempty
        simp only [if_neg hempty]
        refine ⟨?_, rfl, fun k => ?_, fun k hk => ?_, fun k hk => ?_⟩
        · rw [hrow]
          rfl
        · rw [group_insert]
          split
          · rename_i hk
            rw [← hk, hgroup]
          · rfl
        · rw [List.mem_singleton.1 hk, group_insert, if_pos rfl, hgroup, hrow]
        · rw [group_insert, if_neg (hself k hk)]

theorem refreshAll_spec (ev : Evaluator) (g : Grouping) (keys : List (List Node)) :
    (g.refreshAll ev keys).2.IsRefreshed ev g keys := by
  induction keys generalizing g with
  | nil =>
      constructor
      · rfl
      · exact fun _ => rfl
      · exact fun k hk => absurd hk List.not_mem_nil
      · exact fun _ _ => rfl
  | cons key rest ih =>
      obtain ⟨_, hr⟩ := refresh_spec ev g key
      have hr' := ih (g.refresh ev key).2
      have hunfold : g.refreshAll ev (key :: rest) =
          ⟨(g.refresh ev key).1.append ((g.refresh ev key).2.refreshAll ev rest).1,
            ((g.refresh ev key).2.refreshAll ev rest).2⟩ := rfl
      rw [hunfold]
      constructor
      · rw [hr'.aggregation_eq, hr.aggregation_eq]
      · intro k
        rw [hr'.members_eq, hr.members_eq]
      · intro k hk
        by_cases hmem : k ∈ rest
        · rw [hr'.row_eq k hmem, hr.aggregation_eq, hr.members_eq]
        · obtain rfl : k = key := (List.mem_cons.1 hk).resolve_right hmem
          rw [hr'.group_eq k hmem, hr.row_eq k (List.mem_singleton_self k)]
      · intro k hk
        rw [List.mem_cons, ← List.mem_singleton, not_or] at hk
        rw [hr'.group_eq k hk.2, hr.group_eq k hk.1]

private theorem changes_refreshAll {keys : List (List Node)} (hnodup : keys.Nodup) :
    (g.refreshAll ev keys).1.changes = keys.flatMap fun key =>
      replacement (g.group key).row (rowOf? ev g.aggregation key (g.group key).members) := by
  induction keys generalizing g with
  | nil => rfl
  | cons key rest ih =>
      obtain ⟨hnot, hnodup⟩ := List.nodup_cons.1 hnodup
      obtain ⟨hchanges, hr⟩ := refresh_spec ev g key
      have hrest : ∀ k ∈ rest, (g.refresh ev key).2.group k = g.group k := by
        intro k hk
        refine hr.group_eq k fun hmem => hnot ?_
        rw [← List.mem_singleton.1 hmem]
        exact hk
      have happend : (g.refreshAll ev (key :: rest)).1.changes =
          (g.refresh ev key).1.changes ++ ((g.refresh ev key).2.refreshAll ev rest).1.changes := rfl
      rw [happend, hchanges, ih hnodup, List.flatMap_cons]
      refine congrArg _ (List.flatMap_congr fun k hk => ?_)
      rw [hrest k hk, hr.aggregation_eq]

private theorem failure_of_refresh {failure : Bindings × Error}
    (h : failure ∈ (g.refresh ev key).1.failures) :
    (g.group key).members ≠ ∅ ∧ failure.1 = g.aggregation.groupBindings key ∧
      g.aggregation.row ev key (g.group key).members = .error failure.2 := by
  unfold refresh at h
  split at h
  · exact absurd h List.not_mem_nil
  · rename_i old hget
    have hgroup : g.group key = old := by rw [group, hget]; rfl
    rw [hgroup]
    split at h
    · exact absurd h List.not_mem_nil
    · rename_i hmembers
      refine ⟨fun hempty => hmembers (OrderedSet.isEmpty_iff.2 hempty), ?_⟩
      cases hrow : g.aggregation.row ev key old.members with
      | ok row =>
          rw [hrow] at h
          exact absurd h List.not_mem_nil
      | error e =>
          rw [hrow] at h
          rw [List.mem_singleton.1 h]
          exact ⟨rfl, rfl⟩

private theorem failure_of_refreshAll {keys : List (List Node)} {failure : Bindings × Error}
    (h : failure ∈ (g.refreshAll ev keys).1.failures) :
    ∃ key, (g.group key).members ≠ ∅ ∧ failure.1 = g.aggregation.groupBindings key ∧
      g.aggregation.row ev key (g.group key).members = .error failure.2 := by
  induction keys generalizing g with
  | nil => exact absurd h List.not_mem_nil
  | cons key rest ih =>
      rcases List.mem_append.1 h with h | h
      · exact ⟨key, failure_of_refresh h⟩
      · obtain ⟨_, hr⟩ := refresh_spec ev g key
        obtain ⟨k, hk⟩ := ih h
        rw [hr.members_eq, hr.aggregation_eq] at hk
        exact ⟨k, hk⟩

theorem failure_of_receiveAll {incoming : List (Change Token)} {p : Propagation} {g' : Grouping}
    (hrun : g.receiveAll ev incoming = .ok (p, g')) {failure : Bindings × Error}
    (h : failure ∈ p.failures) :
    ∃ key, (g'.group key).members ≠ ∅ ∧ failure.1 = g'.aggregation.groupBindings key ∧
      g'.aggregation.row ev key (g'.group key).members = .error failure.2 := by
  obtain ⟨⟨touched, g₁⟩, _, hrefresh⟩ := Result.bind_eq_ok_iff.1 hrun
  obtain ⟨rfl, rfl⟩ := Prod.mk.inj (Except.ok.inj hrefresh)
  have hr := refreshAll_spec ev g₁ (OrderedSet.ofList touched).toList
  obtain ⟨key, hkey⟩ := failure_of_refreshAll h
  refine ⟨key, ?_⟩
  rw [hr.members_eq, hr.aggregation_eq]
  exact hkey

/-! ## Receiving changes -/

variable {found' : Token → Prop} {incoming : List (Change Token)}

theorem Holds.receiveAll_replaces (h : g.Holds ev a found)
    (hincoming : Change.Leads incoming found found')
    (hkeyed : ∀ t, found t ∨ .gained t ∈ incoming → ∃ key, t.bindings.joinKey a.groupBy = .ok key) :
    ∃ p g', g.receiveAll ev incoming = .ok (p, g') ∧ g'.Holds ev a found' ∧
      ∃ keys : List (List Node), keys.Nodup ∧
        (∀ key, key ∈ keys ↔ ∃ c ∈ incoming, c.value.bindings.joinKey a.groupBy = .ok key) ∧
        (∀ key, key ∉ keys → (g'.group key).row = (g.group key).row) ∧
        p.changes = keys.flatMap fun key => replacement (g.group key).row (g'.group key).row := by
  have hagg := h.aggregation_eq
  obtain ⟨touched, g₁, h₁, hfiles, hfrom, htouched⟩ :=
    h.files.runStage_file hincoming (by rwa [hagg])
  have hagg₁ : g₁.aggregation = a := by
    rw [hfrom.aggregation_eq, hagg]
  have hr := refreshAll_spec ev g₁ (OrderedSet.ofList touched).toList
  have hkeys : ∀ key, key ∈ (OrderedSet.ofList touched).toList ↔ key ∈ touched := fun key => by
    rw [OrderedSet.mem_toList_iff, OrderedSet.mem_ofList]
  have hrow : ∀ key, key ∉ (OrderedSet.ofList touched).toList →
      ((g₁.refreshAll ev (OrderedSet.ofList touched).toList).2.group key).row =
        (g.group key).row := by
    intro key hkey
    rw [hr.group_eq key hkey, hfrom.row_eq]
  have hrun : g.receiveAll ev incoming =
      .ok (g₁.refreshAll ev (OrderedSet.ofList touched).toList) := by
    rw [receiveAll, h₁]
    rfl
  have hholds : (g₁.refreshAll ev (OrderedSet.ofList touched).toList).2.Holds ev a found' := by
    constructor
    · rw [hr.aggregation_eq, hagg₁]
    · intro key t
      rw [hr.members_eq, hr.aggregation_eq]
      exact hfiles key t
    · intro key
      by_cases hkey : key ∈ (OrderedSet.ofList touched).toList
      · rw [hr.row_eq key hkey, hr.members_eq, hagg₁]
      · rw [hrow key hkey, h.current key, hr.group_eq key hkey, hfrom.group_eq key]
        rwa [← hkeys]
  refine ⟨_, _, hrun, hholds, _, (OrderedSet.ofList touched).nodup_toList, fun key => ?_, hrow, ?_⟩
  · rw [hkeys, htouched, hagg]
  · rw [changes_refreshAll (OrderedSet.nodup_toList _)]
    refine List.flatMap_congr fun key hkey => ?_
    rw [hr.row_eq key hkey, hfrom.row_eq]

theorem Holds.joinKey_row (h : g.Holds ev a found)
    (hresults : ∀ e ∈ a.results, e.1 ∉ a.groupBy) {row : Token} (hrow : (g.group key).row = some row) :
    row.bindings.joinKey a.groupBy = .ok key := by
  rw [h.current, rowOf?_eq_some_iff] at hrow
  obtain ⟨t, ht⟩ := OrderedSet.exists_mem_of_ne_empty hrow.1
  have hkey := ((h.files key t).1 ht).2
  rw [h.aggregation_eq] at hkey
  exact Aggregation.joinKey_row hresults hrow.2 hkey

theorem Holds.alters_replacements {g' : Grouping} (h : g.Holds ev a found)
    (h' : g'.Holds ev a found') (hresults : ∀ e ∈ a.results, e.1 ∉ a.groupBy)
    {keys : List (List Node)} (hnodup : keys.Nodup)
    (hother : ∀ key, key ∉ keys → (g'.group key).row = (g.group key).row) :
    Alters (keys.flatMap fun key => replacement (g.group key).row (g'.group key).row)
      (a.IsRow ev found) (a.IsRow ev found') := by
  have hkey : ∀ t key, (g.group key).row = some t ∨ (g'.group key).row = some t →
      t.bindings.joinKey a.groupBy = .ok key := by
    rintro t key (hrow | hrow)
    · exact h.joinKey_row hresults hrow
    · exact h'.joinKey_row hresults hrow
  have hunique : ∀ t key key', (g.group key).row = some t ∨ (g'.group key).row = some t →
      (g.group key').row = some t ∨ (g'.group key').row = some t → key = key' := by
    intro t key key' hk hk'
    exact Result.eq_of_eq_ok (hkey t key hk) (hkey t key' hk')
  have halters := Grouping.alters_replacements hnodup hother hunique
  exact halters.congr (fun _ => h.rows_iff) fun _ => h'.rows_iff

/-- What a grouping passes on leads from the rows before to the rows afterwards. -/
theorem Holds.receiveAll_spec {bound : OrderedSet Variable} (hvalid : a.IsValid bound)
    (h : g.Holds ev a found) (hincoming : Change.Leads incoming found found')
    (hbinds : ∀ t, found t ∨ .gained t ∈ incoming → ∀ v ∈ bound, t.bindings.contains v = true) :
    ∃ p g', g.receiveAll ev incoming = .ok (p, g') ∧ g'.Holds ev a found' ∧
      Alters p.changes (a.IsRow ev found) (a.IsRow ev found') := by
  have hkeyed : ∀ t, found t ∨ .gained t ∈ incoming →
      ∃ key, t.bindings.joinKey a.groupBy = .ok key :=
    fun t ht => Bindings.exists_joinKey_iff.2 fun v hv => hbinds t ht v (hvalid.grouped v hv)
  obtain ⟨p, g', hrun, hg', keys, hnodup, _, hother, hchanges⟩ :=
    h.receiveAll_replaces hincoming hkeyed
  refine ⟨p, g', hrun, hg', ?_⟩
  rw [hchanges]
  exact h.alters_replacements hg' hvalid.fresh hnodup hother

end Grouping

end Entail
