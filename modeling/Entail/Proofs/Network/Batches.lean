import Entail.Proofs.Network.Grouping
/-!
# Batches

Changes of tokens reach a grouping in batches, and a token may come and go again within one batch, as
long as only new tokens come and only known tokens go. After each batch the groups are the classes of
the tokens that are there, without an empty one, and their rows are those of their members. So the
groups and rows do not depend on how the changes were ordered and cut into batches.
-/

namespace Entail

variable {ev : Evaluator} {a : Aggregation} {key : List Node}

namespace Grouping

variable {g g' : Grouping} {found : Token → Prop} {t : Token} {c : Change Token}
  {touched : List (List Node)} {incoming : List (Change Token)}

/-- One batch after the other arrives. -/
def follow (ev : Evaluator) (g : Grouping) (batches : List (List (Change Token))) :
    Except Fault Grouping :=
  batches.foldlM (fun g incoming => (g.receiveAll ev incoming).map Prod.snd) g

/-- The tokens that have come and not gone again. -/
def tokensOf (batches : List (List (Change Token))) : Token → Prop :=
  Change.stepAll batches.flatten fun _ => False

/-- Only new tokens come, which bind the grouping variables, and only known tokens go. -/
structure IsConsistent (a : Aggregation) (batches : List (List (Change Token))) : Prop where
  fresh : Change.AllFresh batches.flatten fun _ => False
  binds : ∀ t, .gained t ∈ batches.flatten → ∀ v ∈ a.groupBy, t.bindings.contains v = true

/-- The groups are the classes of the tokens with the nodes of one key, and the row of a group is
computed from its members; there is none if that fails. -/
structure Partitions (g : Grouping) (ev : Evaluator) (a : Aggregation) (live : Token → Prop) :
    Prop where
  aggregation_eq : g.aggregation = a
  group_iff : ∀ key grp, g.groups.get? key = some grp ↔
    grp.members ≠ ∅ ∧
      (∀ t, t ∈ grp.members ↔ live t ∧ a.groupBy.map t.bindings.get? = key.map some) ∧
      grp.row = (a.row ev key grp.members).toOption
  filed : ∀ t, live t → ∃ key grp, g.groups.get? key = some grp ∧ t ∈ grp.members

theorem Partitions.eq {live : Token → Prop} (h : g.Partitions ev a live)
    (h' : g'.Partitions ev a live) : g = g' := by
  have hgroups : g.groups = g'.groups := by
    apply OrderedMap.ext_get?
    intro key
    apply Option.ext
    intro grp
    rw [h.group_iff, h'.group_iff]
  have haggregation := h.aggregation_eq.trans h'.aggregation_eq.symm
  cases g
  cases g'
  simp_all

/-! ## Empty groups -/

/-- Every group has members. -/
def HasNoEmptyGroup (g : Grouping) : Prop :=
  ∀ key grp, g.groups.get? key = some grp → grp.members ≠ ∅

private theorem get?_of_file (h : g.file c = .ok (touched, g')) (hkey : key ∉ touched) :
    g'.groups.get? key = g.groups.get? key := by
  obtain ⟨k, _, h⟩ := Result.bind_eq_ok_iff.1 h
  have hinsert : ∃ grp, touched = [k] ∧ g' = { g with groups := g.groups.insert k grp } := by
    cases c with
    | gained t | lost t =>
        by_cases ht : t ∈ (g.group k).members
        · simp only [if_pos ht] at h
          cases h <;> exact ⟨_, rfl, rfl⟩
        · simp only [if_neg ht] at h
          cases h <;> exact ⟨_, rfl, rfl⟩
  obtain ⟨grp, rfl, rfl⟩ := hinsert
  have hne : k ≠ key := fun heq => hkey (List.mem_singleton.2 heq.symm)
  rw [OrderedMap.get?_insert, if_neg hne]

private theorem get?_of_runStage_file (h : runStage file g incoming = .ok (touched, g'))
    (hkey : key ∉ touched) : g'.groups.get? key = g.groups.get? key := by
  induction incoming generalizing g touched with
  | nil =>
      obtain ⟨rfl, rfl⟩ := Prod.mk.inj (Except.ok.inj h)
      rfl
  | cons c rest ih =>
      obtain ⟨⟨first, g₁⟩, hfile, h⟩ := Result.bind_eq_ok_iff.1 h
      obtain ⟨⟨others, g₂⟩, hrest, h⟩ := Result.bind_eq_ok_iff.1 h
      obtain ⟨rfl, rfl⟩ := Prod.mk.inj (Except.ok.inj h)
      rw [List.mem_append, not_or] at hkey
      exact (ih hrest hkey.2).trans (get?_of_file hfile hkey.1)

private theorem get?_refresh {k : List Node} {grp : Group}
    (h : (g.refresh ev key).2.groups.get? k = some grp) :
    grp.members ≠ ∅ ∨ k ≠ key ∧ g.groups.get? k = some grp := by
  unfold refresh at h
  split at h
  · rename_i hnone
    refine Or.inr ⟨?_, h⟩
    rintro rfl
    rw [hnone] at h
    cases h
  · rename_i old _
    split at h
    · rw [OrderedMap.get?_erase] at h
      split at h
      · cases h
      · rename_i hne
        exact Or.inr ⟨Ne.symm hne, h⟩
    · rename_i hmembers
      rw [OrderedMap.get?_insert] at h
      split at h
      · obtain rfl := Option.some_inj.1 h
        exact Or.inl fun heq => hmembers (OrderedSet.isEmpty_iff.2 heq)
      · rename_i hne
        exact Or.inr ⟨Ne.symm hne, h⟩

private theorem get?_refreshAll {keys : List (List Node)} {grp : Group}
    (h : (g.refreshAll ev keys).2.groups.get? key = some grp) :
    grp.members ≠ ∅ ∨ key ∉ keys ∧ g.groups.get? key = some grp := by
  induction keys generalizing g with
  | nil => exact Or.inr ⟨List.not_mem_nil, h⟩
  | cons k rest ih =>
      rcases ih h with hne | ⟨hrest, h⟩
      · exact Or.inl hne
      · refine (get?_refresh h).imp_right fun ⟨hne, h⟩ => ⟨?_, h⟩
        rw [List.mem_cons, not_or]
        exact ⟨hne, hrest⟩

theorem HasNoEmptyGroup.receiveAll {p : Propagation} (h : g.HasNoEmptyGroup)
    (hrun : g.receiveAll ev incoming = .ok (p, g')) : g'.HasNoEmptyGroup := by
  obtain ⟨⟨touched, g₁⟩, hfile, hrefresh⟩ := Result.bind_eq_ok_iff.1 hrun
  obtain ⟨rfl, rfl⟩ := Prod.mk.inj (Except.ok.inj hrefresh)
  intro key grp hgrp
  rcases get?_refreshAll hgrp with hne | ⟨hkey, hgrp⟩
  · exact hne
  · rw [OrderedSet.mem_toList_iff, OrderedSet.mem_ofList] at hkey
    exact h key grp ((get?_of_runStage_file hfile hkey).symm.trans hgrp)

private theorem group_eq_of_get? {grp : Group} (h : g.groups.get? key = some grp) :
    g.group key = grp := by
  rw [group, h]
  rfl

private theorem group_eq_of_parts {grp grp' : Group} (hmembers : grp.members = grp'.members)
    (hrow : grp.row = grp'.row) : grp = grp' := by
  cases grp
  cases grp'
  cases hmembers
  cases hrow
  rfl

private theorem get?_of_members_ne (h : (g.group key).members ≠ ∅) :
    g.groups.get? key = some (g.group key) := by
  cases hget : g.groups.get? key with
  | none =>
      rw [group, hget] at h
      exact absurd rfl h
  | some grp => rw [group_eq_of_get? hget]

private theorem rowOf?_of_ne {members : OrderedSet Token} (h : members ≠ ∅) :
    rowOf? ev a key members = (a.row ev key members).toOption :=
  if_neg fun hempty => h (OrderedSet.isEmpty_iff.1 hempty)

theorem Holds.partitions (h : g.Holds ev a found) (hne : g.HasNoEmptyGroup)
    (hkeyed : ∀ t, found t → ∃ key, t.bindings.joinKey a.groupBy = .ok key) :
    g.Partitions ev a found := by
  have hfiles : ∀ key t, t ∈ (g.group key).members ↔
      found t ∧ a.groupBy.map t.bindings.get? = key.map some := by
    intro key t
    rw [h.files key t, h.aggregation_eq, Bindings.joinKey_eq_ok_iff]
  refine ⟨h.aggregation_eq, fun key grp => ⟨fun hget => ?_, ?_⟩, fun t ht => ?_⟩
  · have hmembers := hne key grp hget
    have hrow := h.current key
    have hfiled := hfiles key
    rw [group_eq_of_get? hget] at hrow hfiled
    exact ⟨hmembers, hfiled, hrow.trans (rowOf?_of_ne hmembers)⟩
  · rintro ⟨hmembers, hfiled, hrow⟩
    have hsame : (g.group key).members = grp.members :=
      OrderedSet.ext_mem fun t => (hfiles key t).trans (hfiled t).symm
    have hcurrent := h.current key
    rw [hsame, rowOf?_of_ne hmembers, ← hrow] at hcurrent
    rw [get?_of_members_ne (hsame ▸ hmembers), group_eq_of_parts hsame hcurrent]
  · obtain ⟨key, hkey⟩ := hkeyed t ht
    have hmem : t ∈ (g.group key).members :=
      (hfiles key t).2 ⟨ht, Bindings.joinKey_eq_ok_iff.1 hkey⟩
    have hmembers : (g.group key).members ≠ ∅ := by
      intro hempty
      rw [hempty] at hmem
      exact OrderedSet.not_mem_empty t hmem
    exact ⟨key, g.group key, get?_of_members_ne hmembers, hmem⟩

/-! ## Runs -/

private theorem keyed_stepAll (hkeyed : ∀ t, found t ∨ .gained t ∈ incoming →
    ∃ key, t.bindings.joinKey a.groupBy = .ok key) (ht : Change.stepAll incoming found t) :
    ∃ key, t.bindings.joinKey a.groupBy = .ok key := by
  refine hkeyed t (or_iff_not_imp_left.2 fun hnot => ?_)
  exact Change.gained_mem_of_stepAll hnot ht

private theorem Holds.follow_spec (h : g.Holds ev a found) (hne : g.HasNoEmptyGroup)
    {batches : List (List (Change Token))} (hfresh : Change.AllFresh batches.flatten found)
    (hkeyed : ∀ t, found t ∨ .gained t ∈ batches.flatten →
      ∃ key, t.bindings.joinKey a.groupBy = .ok key) :
    ∃ g', g.follow ev batches = .ok g' ∧ g'.Holds ev a (Change.stepAll batches.flatten found) ∧
      g'.HasNoEmptyGroup := by
  induction batches generalizing g found with
  | nil => exact ⟨g, rfl, h, hne⟩
  | cons incoming rest ih =>
      rw [List.flatten_cons, Change.allFresh_append_iff] at hfresh
      have hfirst : ∀ t, found t ∨ .gained t ∈ incoming →
          ∃ key, t.bindings.joinKey a.groupBy = .ok key := fun t ht =>
        hkeyed t (ht.imp_right fun hmem => List.mem_append_left _ hmem)
      obtain ⟨p, g₁, h₁, hg₁, _⟩ :=
        h.receiveAll_replaces ⟨hfresh.1, fun _ => Iff.rfl⟩ hfirst
      obtain ⟨g₂, h₂, hg₂, hne₂⟩ := ih hg₁ (hne.receiveAll h₁) hfresh.2 fun t ht => by
        rcases ht with ht | ht
        · exact keyed_stepAll hfirst ht
        · exact hkeyed t (Or.inr (List.mem_append_right _ ht))
      refine ⟨g₂, ?_, ?_, hne₂⟩
      · rw [follow, List.foldlM_cons, h₁]
        exact h₂
      · rw [List.flatten_cons, Change.stepAll_append]
        exact hg₂

namespace IsConsistent

variable {batches : List (List (Change Token))}

private theorem exists_key (h : IsConsistent a batches) (ht : .gained t ∈ batches.flatten) :
    ∃ key, t.bindings.joinKey a.groupBy = .ok key :=
  Bindings.exists_joinKey_iff.2 (h.binds t ht)

private theorem exists_key_of_tokensOf (h : IsConsistent a batches) (ht : tokensOf batches t) :
    ∃ key, t.bindings.joinKey a.groupBy = .ok key :=
  h.exists_key (Change.gained_mem_of_stepAll id ht)

private theorem follow_spec (h : IsConsistent a batches) (ev : Evaluator) :
    ∃ g, (new a).follow ev batches = .ok g ∧ g.Holds ev a (tokensOf batches) ∧
      g.HasNoEmptyGroup ∧ g.Partitions ev a (tokensOf batches) := by
  obtain ⟨g, hrun, hg, hne⟩ := (holds_new ev a).follow_spec (fun _ _ => nofun) h.fresh
    fun t ht => h.exists_key (ht.resolve_left id)
  exact ⟨g, hrun, hg, hne, hg.partitions hne fun t => h.exists_key_of_tokensOf⟩

end IsConsistent

/-- However the changes were ordered and cut into batches, the groups are the classes of the tokens that
are there and their rows are those of their members. What the next batch passes on replaces the rows of
the groups that it is about, where they differ. If no result is named after a grouping variable, as in
every aggregation that has no problem, a row carries the key of its group, and the replacements lead from
the set of rows before to the set of rows afterwards. -/
theorem rows_depend_on_members (ev : Evaluator) (a : Aggregation)
    (batches : List (List (Change Token))) (next : List (Change Token))
    (hconsistent : IsConsistent a (batches ++ [next])) :
    ∃ g p g', (new a).follow ev batches = .ok g ∧ g.receiveAll ev next = .ok (p, g') ∧
      g.Partitions ev a (tokensOf batches) ∧ g'.Partitions ev a (tokensOf (batches ++ [next])) ∧
      (∃ keys : List (List Node), keys.Nodup ∧
        (∀ key, key ∈ keys ↔ ∃ c ∈ next, a.groupBy.map c.value.bindings.get? = key.map some) ∧
        (∀ key, key ∉ keys → (g'.group key).row = (g.group key).row) ∧
        p.changes = keys.flatMap fun key => replacement (g.group key).row (g'.group key).row) ∧
      ((∀ e ∈ a.results, e.1 ∉ a.groupBy) → Alters p.changes g.Rows g'.Rows ∧
        ∀ key row, (g'.group key).row = some row →
          a.groupBy.map row.bindings.get? = key.map some) ∧
      ∀ others : List (List (Change Token)), IsConsistent a others →
        (others.flatten.Perm (batches ++ [next]).flatten ∨
          ∀ t, tokensOf others t ↔ tokensOf (batches ++ [next]) t) →
        (new a).follow ev others = .ok g' := by
  have hflat : (batches ++ [next]).flatten = batches.flatten ++ next := by simp
  have hfresh := hconsistent.fresh
  rw [hflat, Change.allFresh_append_iff] at hfresh
  have hbefore : IsConsistent a batches := by
    refine ⟨hfresh.1, fun t ht => hconsistent.binds t ?_⟩
    rw [hflat]
    exact List.mem_append_left next ht
  have hnext : Change.Leads next (tokensOf batches) (tokensOf (batches ++ [next])) := by
    refine ⟨hfresh.2, fun t => ?_⟩
    rw [tokensOf, tokensOf, hflat, Change.stepAll_append]
  obtain ⟨g, hrun, hg, hne, hpartitions⟩ := hbefore.follow_spec ev
  obtain ⟨p, g', hreceive, hg', keys, hnodup, hkeys, hother, hchanges⟩ :=
    hg.receiveAll_replaces hnext fun t ht => by
      rcases ht with ht | ht
      · exact hbefore.exists_key_of_tokensOf ht
      · refine hconsistent.exists_key ?_
        rw [hflat]
        exact List.mem_append_right _ ht
  have hpartitions' : g'.Partitions ev a (tokensOf (batches ++ [next])) :=
    hg'.partitions (hne.receiveAll hreceive) fun t => hconsistent.exists_key_of_tokensOf
  refine ⟨g, p, g', hrun, hreceive, hpartitions, hpartitions',
    ⟨keys, hnodup, fun key => ?_, hother, hchanges⟩, fun hresults => ?_, fun others ho hsame => ?_⟩
  · rw [hkeys]
    simp only [Bindings.joinKey_eq_ok_iff]
  · refine ⟨?_, fun key row hrow => ?_⟩
    · have halters := hg.alters_replacements hg' hresults hnodup hother
      rw [hchanges]
      exact halters.congr (fun _ => hg.rows_iff.symm) fun _ => hg'.rows_iff.symm
    · exact Bindings.joinKey_eq_ok_iff.1 (hg'.joinKey_row hresults hrow)
  · have hlive : tokensOf others = tokensOf (batches ++ [next]) := by
      funext t
      rcases hsame with hperm | hsame
      · exact propext (ho.fresh.stepAll_iff_of_perm hconsistent.fresh hperm t)
      · exact propext (hsame t)
    obtain ⟨last, hlast, _, _, hpartitions₂⟩ := ho.follow_spec ev
    rw [hlive] at hpartitions₂
    rw [hlast, hpartitions₂.eq hpartitions']

/-- A group has no row while one of its members has no number to add, and another group is emptied by
the batch that it came with. Without the two, the outcome is the same. -/
theorem rows_recover_from_failure :
    let member := fun x n => Token.mk
      ((OrderedMap.empty.insert ⟨"x"⟩ (.iri x)).insert ⟨"y"⟩ (Value.toNode n)) []
    let a : Aggregation := ⟨[⟨"x"⟩], [(⟨"total"⟩, ⟨.sum, some (.variable ⟨"y"⟩), false⟩)]⟩
    let batches := [[.gained (member "anna" (.integer 1)), .gained (member "anna" (.string "lots"))]]
    let next := [.lost (member "anna" (.string "lots")), .gained (member "ben" (.integer 2)),
      .lost (member "ben" (.integer 2))]
    let others := [[.gained (member "anna" (.integer 1))]]
    IsConsistent a (batches ++ [next]) ∧ IsConsistent a others ∧
      (∀ e ∈ a.results, e.1 ∉ a.groupBy) ∧
      ∃ g p g', (new a).follow .standard batches = .ok g ∧
        g.receiveAll .standard next = .ok (p, g') ∧ (g.group [.iri "anna"]).row = none ∧
        p.changes = [.gained ⟨(OrderedMap.empty.insert ⟨"x"⟩ (.iri "anna")).insert ⟨"total"⟩
          (Value.toNode (.integer 1)), []⟩] ∧
        Alters p.changes g.Rows g'.Rows ∧ (new a).follow .standard others = .ok g' := by
  intro member a batches next others
  have hlots : member "anna" (.string "lots") ≠ member "anna" (.integer 1) := by decide +kernel
  have hben : member "ben" (.integer 2) ≠ member "anna" (.integer 1) := by decide +kernel
  have hben' : member "ben" (.integer 2) ≠ member "anna" (.string "lots") := by decide +kernel
  have hcontains : ∀ c ∈ (batches ++ [next]).flatten ++ others.flatten, ∀ v ∈ a.groupBy,
      c.value.bindings.contains v = true := by
    decide +kernel
  have hconsistent : IsConsistent a (batches ++ [next]) := by
    refine ⟨⟨id, ?_, Or.inr rfl, ?_, Or.inr rfl, trivial⟩, fun t ht => ?_⟩
    · rintro (hnone | heq)
      · exact hnone
      · exact hlots heq
    · rintro ⟨(hnone | heq) | heq, _⟩
      · exact hnone
      · exact hben heq
      · exact hben' heq
    · exact hcontains (.gained t) (List.mem_append_left _ ht)
  have hothers : IsConsistent a others :=
    ⟨⟨id, trivial⟩, fun t ht => hcontains (.gained t) (List.mem_append_right _ ht)⟩
  have hresults : ∀ e ∈ a.results, e.1 ∉ a.groupBy := by decide
  have hsame : ∀ t, tokensOf others t ↔ tokensOf (batches ++ [next]) t := by
    intro t
    change False ∨ t = member "anna" (.integer 1) ↔
      ((((False ∨ t = member "anna" (.integer 1)) ∨ t = member "anna" (.string "lots")) ∧
        t ≠ member "anna" (.string "lots")) ∨ t = member "ben" (.integer 2)) ∧
          t ≠ member "ben" (.integer 2)
    constructor
    · rintro (ht | rfl)
      · exact ht.elim
      · exact ⟨Or.inl ⟨Or.inl (Or.inr rfl), hlots.symm⟩, hben.symm⟩
    · tauto
  have hout : ((new a).follow .standard batches).toOption.bind (fun g =>
      (g.receiveAll .standard next).toOption.map fun r =>
        ((g.group [.iri "anna"]).row, r.1.changes)) =
      some (none, [.gained ⟨(OrderedMap.empty.insert ⟨"x"⟩ (.iri "anna")).insert ⟨"total"⟩
        (Value.toNode (.integer 1)), []⟩]) := by
    decide +kernel
  obtain ⟨g, p, g', hrun, hreceive, _, _, _, halters, hothers'⟩ :=
    rows_depend_on_members .standard a batches next hconsistent
  simp only [hrun, hreceive, Except.toOption, Option.bind_some, Option.map_some, Option.some_inj,
    Prod.mk.injEq] at hout
  exact ⟨hconsistent, hothers, hresults, g, p, g', hrun, hreceive, hout.1, hout.2,
    (halters hresults).1, hothers' others hothers (Or.inr hsame)⟩

end Grouping

end Entail
