import Entail.Proofs.Store.Lookup
import Entail.Store.Command
import Mathlib.Data.Set.Card
/-!
# Changesets

A changeset is carried out as a whole or not at all. If a quad to be added is not well-formed, the
command that applies the changeset fails before anything is changed; otherwise it cannot fail any
more, and the report, the contents and what the subscriptions are told are those of the removals that
made a difference, followed by the additions that did.
-/

namespace Entail.Store

variable {σ σ' : Store} {q : Quad} {qs : List Quad} {c : Changeset}

/-! ## Several changes -/

/-- The store after changes each of which makes a difference. -/
def takeAll (σ : Store) (changes : List (Change Quad)) : Store :=
  changes.foldl take σ

theorem contents_takeAll (σ : Store) (changes : List (Change Quad)) :
    (σ.takeAll changes).contents = σ.contents.replay changes := by
  induction changes generalizing σ with
  | nil => rfl
  | cons change rest ih => exact ih (σ.take change)

theorem takeAll_append (σ : Store) (changes more : List (Change Quad)) :
    σ.takeAll (changes ++ more) = (σ.takeAll changes).takeAll more :=
  List.foldl_append

theorem nextId_takeAll (σ : Store) (changes : List (Change Quad)) :
    (σ.takeAll changes).feed.nextId = σ.feed.nextId := by
  induction changes generalizing σ with
  | nil => rfl
  | cons change rest ih => exact ih (σ.take change)

theorem get?_takeAll (σ : Store) (changes : List (Change Quad)) (id : Nat) :
    (σ.takeAll changes).feed.buffers.get? id =
      (σ.feed.buffers.get? id).map (· ++ changes) := by
  induction changes generalizing σ with
  | nil => simp [takeAll]
  | cons change rest ih =>
      have hfirst : (σ.take change).feed.buffers.get? id =
          (σ.feed.buffers.get? id).map (· ++ [change]) := OrderedMap.get?_mapValues _ _ _
      have htake : σ.takeAll (change :: rest) = (σ.take change).takeAll rest := rfl
      rw [htake, ih, hfirst, Option.map_map]
      refine congrArg (Option.map · _) (funext fun buffer => ?_)
      exact List.append_assoc buffer [change] rest

/-! ## Removals and insertions -/

/-- The list has the elements of the set, each once, in the order in which `asked` has them. -/
structure Lists (l asked : List Quad) (P : Quad → Prop) : Prop where
  mem_iff : ∀ q, q ∈ l ↔ P q
  nodup : l.Nodup
  sublist : l.Sublist asked

namespace Lists

variable {l asked : List Quad} {P : Quad → Prop}

theorem skip (h : Lists l asked (fun x => x ∈ asked ∧ P x)) (hq : ¬ P q) :
    Lists l (q :: asked) (fun x => x ∈ q :: asked ∧ P x) where
  mem_iff x := by
    rw [h.mem_iff]
    by_cases hx : x = q
    · simp [hx, hq]
    · simp [hx]
  nodup := h.nodup
  sublist := h.sublist.cons q

theorem cons (h : Lists l asked (fun x => x ∈ asked ∧ P x ∧ x ≠ q)) (hq : P q) :
    Lists (q :: l) (q :: asked) (fun x => x ∈ q :: asked ∧ P x) where
  mem_iff x := by
    rw [List.mem_cons, h.mem_iff]
    by_cases hx : x = q
    · simp [hx, hq]
    · simp [hx]
  nodup := List.nodup_cons.2 ⟨fun hmem => ((h.mem_iff q).1 hmem).2.2 rfl, h.nodup⟩
  sublist := h.sublist.cons_cons q

theorem length_eq (h : Lists l asked P) : l.length = {q | P q}.ncard := by
  have hset : {q | P q} = (l.toFinset : Set Quad) := by
    ext q
    rw [Finset.mem_coe, List.mem_toFinset, h.mem_iff]
    rfl
  rw [hset, Set.ncard_coe_finset, List.toFinset_card_of_nodup h.nodup]

end Lists

/-- The quads whose entry or exit makes a difference, each the first time. -/
theorem exists_attemptAll_eq (u : Update) (σ : Store) (qs : List Quad) :
    ∃ l, Lists l qs (fun q => q ∈ qs ∧ u.IsFresh σ.contents.Has q) ∧
      σ.attemptAll (qs.map u.change) = (l.length, σ.takeAll (l.map u.change)) := by
  induction qs generalizing σ with
  | nil => exact ⟨[], ⟨by simp, List.nodup_nil, .slnil⟩, rfl⟩
  | cons q rest ih =>
      obtain ⟨l, hlists, heq⟩ := ih (σ.attempt (u.change q)).2
      rw [List.map_cons, attemptAll, heq]
      by_cases hfresh : u.IsFresh σ.contents.Has q
      · have hfresh' : (u.change q).IsFresh σ.contents.Has := u.isFresh_change_iff.2 hfresh
        rw [attempt_of_fresh hfresh'] at hlists ⊢
        simp only [has_take, Update.step_change, Update.isFresh_apply_iff] at hlists
        exact ⟨q :: l, hlists.cons hfresh, Prod.ext (Nat.add_comm _ _) rfl⟩
      · have hstale : ¬ (u.change q).IsFresh σ.contents.Has := mt u.isFresh_change_iff.1 hfresh
        rw [attempt_of_not_fresh hstale] at hlists ⊢
        exact ⟨l, hlists.skip hfresh, Prod.ext (Nat.zero_add _) rfl⟩

/-! ## Commands -/

namespace Command

variable {α β : Type}

theorem run_bind (x : Command α) (f : α → Command β) (σ : Store) :
    (x >>= f).run σ =
      match x.run σ with
      | (.ok a, σ') => (f a).run σ'
      | (.error e, σ') => (.error e, σ') := by
  change ExceptT.bindCont f (x.run σ).1 (x.run σ).2 = _
  rcases x.run σ with ⟨_ | _, _⟩
  · rfl
  · rfl

theorem run_checkAll (qs : List Quad) (σ : Store) :
    (checkAll qs).run σ =
      match firstInvalid? qs with
      | some e => (.error e, σ)
      | none => (.ok (), σ) := by
  induction qs with
  | nil => rfl
  | cons q rest ih =>
      rw [checkAll, run_bind, firstInvalid?, List.findSome?_cons]
      have hcheck : (check q).run σ = (q.validate, σ) := rfl
      rw [hcheck]
      cases q.validate with
      | error e => rfl
      | ok u => exact ih

theorem run_count {step : Quad → Command Bool} (u : Update)
    (hstep : ∀ q ∈ qs, ∀ σ : Store,
      (step q).run σ = (.ok (σ.attempt (u.change q)).1, (σ.attempt (u.change q)).2)) (σ : Store) :
    (count step qs).run σ =
      (.ok (σ.attemptAll (qs.map u.change)).1, (σ.attemptAll (qs.map u.change)).2) := by
  induction qs generalizing σ with
  | nil => rfl
  | cons q rest ih =>
      obtain ⟨hq, hrest⟩ := List.forall_mem_cons.1 hstep
      rw [count, run_bind, hq]
      change (count step rest >>= _).run (σ.attempt (u.change q)).2 = _
      rw [run_bind, ih hrest]
      rfl

theorem run_count_remove (qs : List Quad) (σ : Store) :
    (count remove qs).run σ = (.ok (σ.removeAll qs).1, (σ.removeAll qs).2) := by
  rw [removeAll_eq]
  exact run_count .remove (fun _ _ _ => rfl) σ

theorem run_count_insert (hqs : ∀ q ∈ qs, q.validate = .ok ()) (σ : Store) :
    (count insert qs).run σ = (.ok (σ.insertAllValid qs).1, (σ.insertAllValid qs).2) := by
  rw [insertAllValid_eq]
  refine run_count .insert (fun q hq σ => ?_) σ
  have hcheck : (check q).run σ = (.ok (), σ) := congrArg (·, σ) (hqs q hq)
  rw [insert, run_bind, hcheck]
  rfl

/-- What a failure of the check leaves behind is the store as it was, and after the check nothing
fails any more. -/
theorem run_apply (c : Changeset) (σ : Store) :
    (apply c).run σ =
      match σ.apply c with
      | .ok (report, σ') => (.ok report, σ')
      | .error e => (.error e, σ) := by
  rw [apply, run_bind, run_checkAll, Store.apply]
  cases hvalid : firstInvalid? c.added with
  | some e => rfl
  | none =>
      change (count remove c.removed >>= _).run σ = _
      rw [run_bind, run_count_remove]
      change (count insert c.added >>= _).run (σ.removeAll c.removed).2 = _
      rw [run_bind, run_count_insert (firstInvalid?_eq_none_iff.1 hvalid)]
      rfl

end Command

/-! ## Changesets -/

private theorem validate_eq (q : Quad) :
    q.validate = .ok () ∨ ∃ reason, q.validate = .error (.unsupportedNode reason) := by
  rw [Quad.validate]
  split
  · exact Or.inr ⟨_, rfl⟩
  · split
    · exact Or.inr ⟨_, rfl⟩
    · split
      · exact Or.inl rfl
      · exact Or.inr ⟨_, rfl⟩

theorem exists_firstInvalid?_eq (h : ∃ q ∈ qs, q.validate ≠ .ok ()) :
    ∃ q ∈ qs, ∃ reason, q.validate = .error (.unsupportedNode reason) ∧
      firstInvalid? qs = some (.unsupportedNode reason) := by
  obtain ⟨e, he⟩ : ∃ e, firstInvalid? qs = some e := by
    refine Option.ne_none_iff_exists'.1 fun hnone => ?_
    obtain ⟨q, hq, hinvalid⟩ := h
    exact hinvalid (firstInvalid?_eq_none_iff.1 hnone q hq)
  obtain ⟨q, hq, hsome⟩ := List.exists_of_findSome?_eq_some he
  rcases validate_eq q with hok | ⟨reason, hreason⟩
  · rw [hok] at hsome
    cases hsome
  · rw [hreason] at hsome
    cases hsome
    exact ⟨q, hq, reason, hreason, he⟩

/-- The stored quads that the changeset takes out. -/
def Loses (σ : Store) (c : Changeset) (q : Quad) : Prop :=
  q ∈ c.removed ∧ σ.contents.Has q

/-- The quads that the changeset brings in, which are not stored once the removals are done. -/
def Gains (σ : Store) (c : Changeset) (q : Quad) : Prop :=
  q ∈ c.added ∧ ¬ (σ.contents.Has q ∧ q ∉ c.removed)

/-- The changeset led from the store `σ` to `σ'`, and this is its report. -/
structure CarriesOut (σ : Store) (c : Changeset) (report : ApplyReport) (σ' : Store) : Prop where
  has_iff : ∀ q, σ'.contents.Has q ↔ (σ.contents.Has q ∧ q ∉ c.removed) ∨ q ∈ c.added
  answers : σ'.contents.Answers σ'.contents.Has
  removed_eq : report.removed = {q | σ.Loses c q}.ncard
  added_eq : report.added = {q | σ.Gains c q}.ncard
  nextId_eq : σ'.feed.nextId = σ.feed.nextId
  told : ∃ losses gains, Lists losses c.removed (σ.Loses c) ∧ Lists gains c.added (σ.Gains c) ∧
    ∀ id, σ'.feed.buffers.get? id =
      (σ.feed.buffers.get? id).map (· ++ (losses.map .lost ++ gains.map .gained))

theorem exists_carriesOut (hindexed : σ.contents.IsIndexed) (htidy : σ.contents.IsTidy)
    (hvalid : ∀ q ∈ c.added, q.validate = .ok ()) :
    ∃ report σ', σ.apply c = .ok (report, σ') ∧ σ.CarriesOut c report σ' := by
  obtain ⟨losses, hlosses, hremove⟩ : ∃ losses, Lists losses c.removed (σ.Loses c) ∧
      σ.removeAll c.removed = (losses.length, σ.takeAll (losses.map .lost)) := by
    rw [removeAll_eq]
    exact exists_attemptAll_eq .remove σ c.removed
  obtain ⟨gains, hgains, hinsert⟩ : ∃ gains, Lists gains c.added
        (fun q => q ∈ c.added ∧ ¬ (σ.takeAll (losses.map .lost)).contents.Has q) ∧
      (σ.takeAll (losses.map .lost)).insertAllValid c.added =
        (gains.length, (σ.takeAll (losses.map .lost)).takeAll (gains.map .gained)) := by
    rw [insertAllValid_eq]
    exact exists_attemptAll_eq .insert (σ.takeAll (losses.map .lost)) c.added
  have hkept : ∀ q, (σ.takeAll (losses.map .lost)).contents.Has q ↔
      σ.contents.Has q ∧ q ∉ c.removed := by
    intro q
    rw [contents_takeAll, Contents.has_replay]
    refine (Change.stepAll_losses losses).trans ?_
    rw [hlosses.mem_iff, Loses]
    by_cases hq : σ.contents.Has q
    · simp [hq]
    · simp [hq]
  simp only [hkept] at hgains
  rw [← takeAll_append] at hinsert
  refine ⟨⟨gains.length, losses.length⟩,
    σ.takeAll (losses.map .lost ++ gains.map .gained), ?_, ?_⟩
  · rw [apply, firstInvalid?_eq_none_iff.2 hvalid, hremove]
    simp only [hinsert]
  · have hcontents := contents_takeAll σ (losses.map .lost ++ gains.map .gained)
    refine ⟨fun q => ?_, ?_, hlosses.length_eq, hgains.length_eq, nextId_takeAll σ _,
      losses, gains, hlosses, hgains, get?_takeAll σ _⟩
    · rw [takeAll_append, contents_takeAll, Contents.has_replay]
      refine (Change.stepAll_gains gains).trans ?_
      rw [hkept, hgains.mem_iff]
      by_cases hq : σ.contents.Has q ∧ q ∉ c.removed
      · simp [hq]
      · simp [hq]
    · rw [hcontents]
      exact (hindexed.replay _).answers (htidy.replay _)

/-- Whatever was done with a store, a changeset with an ill-formed addition is refused and leaves the
store as it was, whatever it asks to remove; any other changeset is carried out. -/
theorem changesets_all_or_nothing (actions : List Action) (c : Changeset) :
    let σ := (Session.start.run actions).store
    ((∃ q ∈ c.added, q.validate ≠ .ok ()) →
      ∃ q ∈ c.added, ∃ reason, q.validate = .error (.unsupportedNode reason) ∧
        (Command.apply c).run σ = (.error (.unsupportedNode reason), σ)) ∧
      ((∀ q ∈ c.added, q.validate = .ok ()) →
        ∃ report σ', (Command.apply c).run σ = (.ok report, σ') ∧ σ.CarriesOut c report σ') := by
  intro σ
  constructor
  · intro hinvalid
    obtain ⟨q, hq, reason, hreason, hfirst⟩ := exists_firstInvalid?_eq hinvalid
    refine ⟨q, hq, reason, hreason, ?_⟩
    rw [Command.run_apply, apply, hfirst]
  · intro hvalid
    have hcontents := Session.contents_run Session.start actions
    obtain ⟨report, σ', happly, hcarries⟩ := exists_carriesOut (σ := σ)
      (hcontents ▸ Contents.isIndexed_empty.replay _)
      (hcontents ▸ Contents.isTidy_empty.replay _) hvalid
    refine ⟨report, σ', ?_, hcarries⟩
    rw [Command.run_apply, happly]

/-- A stored quad is on both sides, each time twice, and a quad whose subject is a literal is among
the removals; then that one is to be added. -/
theorem changeset_all_or_nothing_replaced :
    let q := Quad.mk (.iri "g") (.iri "a") (.iri "is") (.iri "seen")
    let r := Quad.mk (.iri "g") (.iri "b") (.iri "is") (.iri "seen")
    let bad := Quad.mk (.iri "g") (.literal (.tagged "a" "en")) (.iri "is") (.iri "seen")
    let σ := (Session.start.run [.subscribe, .mutate (.insert q)]).store
    let replacing : Changeset := ⟨[q, r, q], [q, bad, q]⟩
    let refused : Changeset := ⟨[r, bad], [q]⟩
    (∃ report σ', (Command.apply replacing).run σ = (.ok report, σ') ∧
        σ.CarriesOut replacing report σ' ∧ report = ⟨2, 1⟩ ∧
        σ'.feed.waiting 0 = [.gained q, .lost q, .gained q, .gained r]) ∧
      ∃ x ∈ refused.added, ∃ reason, x.validate = .error (.unsupportedNode reason) ∧
        (Command.apply refused).run σ = (.error (.unsupportedNode reason), σ) := by
  intro q r bad σ replacing refused
  have hactions := changesets_all_or_nothing [.subscribe, .mutate (.insert q)]
  constructor
  · obtain ⟨report, σ', hrun, hcarries⟩ := (hactions replacing).2 (by decide)
    have hreport : ((Command.apply replacing).run σ).1 = .ok ⟨2, 1⟩ := by decide +kernel
    have hwaiting : ((Command.apply replacing).run σ).2.feed.waiting 0 =
        [.gained q, .lost q, .gained q, .gained r] := by decide +kernel
    have hrun' : (Command.apply replacing).run σ = (.ok report, σ') := hrun
    rw [hrun'] at hreport hwaiting
    exact ⟨report, σ', hrun', hcarries, Except.ok.inj hreport, hwaiting⟩
  · exact (hactions refused).1 ⟨bad, by simp [refused], by decide⟩

end Entail.Store
