import Entail.Proofs.Expression.Safety
import Entail.Proofs.Network.Binding
import Entail.Proofs.Rules.Accounting
/-!
# Safety of valid rules

The checks that a rule has to pass say that it reads only variables that its condition binds. Together
with what the matches of a network bind, nothing that the rule evaluates on them comes upon an unbound
variable or an operation that is none: guards, conclusions and aggregates fail on the data only.
-/

namespace Entail

variable {ev : Evaluator} {held : Quad → Prop} {r : Rule} {b : Bindings} {bound : OrderedSet Variable}

/-! ## What the checks say -/

/-- Every variable that the rule reads is bound where it is read. -/
structure Rule.ReadsBound (r : Rule) : Prop where
  guard : ∀ e, r.guard = some e → ∀ v ∈ e.vars, v ∈ r.condition.outputVariables
  conclusions : ∀ c ∈ r.conclusions, ∀ v ∈ c.vars, v ∈ r.condition.outputVariables
  arguments : ∀ a, r.condition.aggregation = some a → ∀ x ∈ a.results, ∀ e,
    x.2.argument = some e → ∀ v ∈ e.vars, v ∈ r.condition.positiveVariables

private theorem bound_of_find? {vars : OrderedSet Variable}
    (h : (vars.toList.find? fun v => !bound.contains v) = none) : ∀ v ∈ vars, v ∈ bound :=
  fun _ hv => OrderedSet.mem_of_find?_eq_none h (OrderedSet.mem_toList_iff.2 hv)

private theorem bound_of_resultProblem? {taken : List Variable} {x : Variable × Aggregate}
    (h : Aggregation.resultProblem? bound taken x.1 x.2 = none) {e : Expression}
    (he : x.2.argument = some e) : ∀ v ∈ e.vars, v ∈ bound := by
  unfold Aggregation.resultProblem? at h
  split at h
  · cases h
  · rw [he] at h
    exact bound_of_find? (Option.map_eq_none_iff.1 h)

private theorem bound_of_conclusionProblem? {c : Conclusion} (h : c.problem? bound = none) :
    ∀ v ∈ c.vars, v ∈ bound := by
  unfold Conclusion.problem? at h
  split at h
  · cases h
  · rename_i hfind
    exact bound_of_find? hfind

theorem Rule.readsBound_of_valid (h : r.problem? = none) : r.ReadsBound := by
  unfold problem? at h
  dsimp only at h
  split at h
  · cases h
  · rename_i hcondition
    split at h
    · cases h
    · split at h
      · cases h
      · rename_i hguard
        refine ⟨fun e he => ?_, fun c hc => ?_, fun a ha x hx e he => ?_⟩
        · rw [he] at hguard
          exact bound_of_find? hguard
        · exact bound_of_conclusionProblem? (List.findSome?_eq_none_iff.1 h c hc)
        · obtain ⟨before, _, hnone⟩ :=
            (Aggregation.results_of_problem?
              (Network.problem?_of_aggregation hcondition ha)).2 x hx
          exact bound_of_resultProblem? hnone he

/-! ## Evaluation on bindings -/

private theorem isSafe_of_binds (h : b.Binds bound) (e : Expression)
    (hbound : ∀ v ∈ e.vars, v ∈ bound) : IsSafe (e.evaluate b) :=
  e.isSafe_evaluate fun v hv => (h v).2 (hbound v (OrderedSet.mem_ofList.2 hv))

theorem Quad.isSafe_validate (q : Quad) : IsSafe q.validate := by
  unfold validate
  split
  · exact .error trivial
  · split
    · exact .error trivial
    · split
      · exact .ok _
      · exact .error trivial

theorem ConclusionTerm.isSafe_resolve (s : ConclusionTerm)
    (h : ∀ v ∈ s.reads, b.contains v = true) : IsSafe (s.resolve .standard b) := by
  cases s with
  | node n => exact .ok n
  | «variable» v =>
      obtain ⟨n, hn⟩ := OrderedMap.contains_iff.1 (h v (List.mem_singleton_self v))
      rw [resolve, hn]
      exact .ok n
  | computed e => exact (e.isSafe_evaluate h).map

theorem Conclusion.isSafe_resolve (h : b.Binds bound) (graph : Node) (c : Conclusion)
    (hbound : ∀ v ∈ c.vars, v ∈ bound) : IsSafe (c.resolve .standard graph b) := by
  have hreads : ∀ v ∈ c.subject.reads ++ c.predicate.reads ++ c.object.reads,
      b.contains v = true := fun v hv => (h v).2 (hbound v (OrderedSet.mem_ofList.2 hv))
  obtain ⟨hreads, hobject⟩ := List.forall_mem_append.1 hreads
  obtain ⟨hsubject, hpredicate⟩ := List.forall_mem_append.1 hreads
  unfold resolve
  refine (c.subject.isSafe_resolve hsubject).bind fun subject _ => ?_
  refine (c.predicate.isSafe_resolve hpredicate).bind fun predicate _ => ?_
  refine (c.object.isSafe_resolve hobject).bind fun object _ => ?_
  exact (Quad.isSafe_validate _).bind fun _ _ => .ok _

namespace Aggregation

variable {a : Aggregation} {key : List Node} {members : List Bindings}

private theorem isSafe_bindResults {results : List (Variable × Aggregate)}
    (h : ∀ x ∈ results, IsSafe (ev.aggregate x.2 members)) (row : Bindings) :
    IsSafe (bindResults ev members row results) := by
  induction results generalizing row with
  | nil => exact .ok row
  | cons x rest ih =>
      obtain ⟨hx, hrest⟩ := List.forall_mem_cons.1 h
      exact hx.bind fun _ _ => ih hrest _

theorem isSafe_row {members : OrderedSet Token}
    (h : ∀ x ∈ a.results, IsSafe (ev.aggregate x.2 (members.toList.map Token.bindings))) :
    IsSafe (a.row ev key members) :=
  (isSafe_bindResults h _).bind fun _ _ => .ok _

end Aggregation

/-! ## Instantiation -/

namespace Rule

theorem ReadsBound.isSafe_guard (h : r.ReadsBound) (hb : b.Binds r.condition.outputVariables)
    {e : Expression} (he : r.guard = some e) : IsSafe (e.evaluate b) :=
  isSafe_of_binds hb e (h.guard e he)

theorem ReadsBound.isSafe_conclusion (h : r.ReadsBound) (hb : b.Binds r.condition.outputVariables)
    {c : Conclusion} (hc : c ∈ r.conclusions) (graph : Node) :
    IsSafe (c.resolve .standard graph b) :=
  c.isSafe_resolve hb graph (h.conclusions c hc)

/-- What is reported instead of conclusions goes back to the guard or to one of the conclusions. -/
theorem ReadsBound.isOfData_of_instantiate (h : r.ReadsBound)
    (hb : b.Binds r.condition.outputVariables) {graph : Node} {d : Diagnostic}
    (hd : d ∈ (r.instantiate .standard graph b).failures) : d.error.IsOfData := by
  unfold instantiate at hd
  split at hd
  · exact absurd hd List.not_mem_nil
  · rename_i error hguard
    rw [List.mem_singleton.1 hd]
    unfold checkGuard at hguard
    split at hguard
    · cases hguard
    · rename_i e he
      split at hguard
      · cases hguard
      · cases hguard
      · cases hguard
        trivial
      · rename_i error' heval
        cases hguard
        exact h.isSafe_guard hb he error heval
  · simp only [List.mem_filterMap, List.mem_map] at hd
    obtain ⟨_, ⟨⟨c, i⟩, hc, rfl⟩, hd⟩ := hd
    cases hresolve : c.resolve .standard graph b with
    | ok q =>
        simp only [hresolve] at hd
        cases hd
    | error error =>
        simp only [hresolve] at hd
        cases hd
        have hmem : c ∈ r.conclusions := List.fst_mem_of_mem_zipIdx hc
        exact h.isSafe_conclusion hb hmem graph error hresolve

/-! ## Networks of valid rules -/

/-- Nothing that the rule evaluates on what is found in the network fails but on the data. -/
structure IsSafeOn (r : Rule) (n : Network) : Prop where
  guard : ∀ t ∈ n.outputs, ∀ e, r.guard = some e → IsSafe (e.evaluate t.bindings)
  conclusions : ∀ t ∈ n.outputs, ∀ c ∈ r.conclusions, ∀ graph,
    IsSafe (c.resolve .standard graph t.bindings)
  instantiation : ∀ t ∈ n.outputs, ∀ graph,
    ∀ d ∈ (r.instantiate .standard graph t.bindings).failures, d.error.IsOfData
  arguments : ∀ a, r.condition.aggregation = some a → ∀ g, n.grouping = some g →
    ∀ key, ∀ t ∈ (g.group key).members, ∀ x ∈ a.results, ∀ e, x.2.argument = some e →
      IsSafe (e.evaluate t.bindings)
  aggregates : ∀ a, r.condition.aggregation = some a → ∀ g, n.grouping = some g →
    ∀ key, (g.group key).members ≠ ∅ → ∀ x ∈ a.results,
      IsSafe (Evaluator.standard.aggregate x.2 ((g.group key).members.toList.map Token.bindings))

variable {n : Network} {failure : Bindings × Error}

theorem ReadsBound.isSafeOn (h : r.ReadsBound) (hbinds : n.BindsExactly)
    (hcondition : n.condition = r.condition) : r.IsSafeOn n := by
  have houtput : ∀ t ∈ n.outputs, t.bindings.Binds r.condition.outputVariables := by
    rw [← hcondition]
    exact hbinds.outputs
  have hargument : ∀ a, r.condition.aggregation = some a → ∀ g, n.grouping = some g →
      ∀ key, ∀ t ∈ (g.group key).members, ∀ x ∈ a.results, ∀ e, x.2.argument = some e →
        IsSafe (e.evaluate t.bindings) := by
    intro a ha g hg key t ht x hx e he
    have hmember := hbinds.members g hg key t ht
    rw [hcondition] at hmember
    exact isSafe_of_binds hmember e (h.arguments a ha x hx e he)
  constructor
  · exact fun t ht e he => h.isSafe_guard (houtput t ht) he
  · exact fun t ht c hc graph => h.isSafe_conclusion (houtput t ht) hc graph
  · exact fun t ht graph d hd => h.isOfData_of_instantiate (houtput t ht) hd
  · exact hargument
  · intro a ha g hg key hne x hx
    -- the least and the greatest value exist because the group has a member
    obtain ⟨t, ht⟩ := OrderedSet.exists_mem_of_ne_empty hne
    have hmembers : (g.group key).members.toList.map Token.bindings ≠ [] :=
      List.ne_nil_of_mem (List.mem_map_of_mem (OrderedSet.mem_toList_iff.2 ht))
    refine x.2.isSafe_compute hmembers fun e he b hb => ?_
    obtain ⟨s, hs, rfl⟩ := List.mem_map.1 hb
    exact hargument a ha g hg key s (OrderedSet.mem_toList_iff.1 hs) x hx e he

theorem IsSafeOn.isOfData_of_lacksRow (h : r.IsSafeOn n) (htracks : n.Tracks ev held)
    (hcondition : n.condition = r.condition) (hlacks : n.LacksRow .standard failure) :
    failure.2.IsOfData := by
  obtain ⟨g, key, hg, hne, _, hrow⟩ := hlacks
  have ha := (htracks.isGroup hg hne).1
  rw [hcondition] at ha
  exact Aggregation.isSafe_row (h.aggregates g.aggregation ha g hg key hne) failure.2 hrow

/-- The network of a valid rule can take in any store and after that be told of any quads that come
and go; it never misses a variable to join or to group by. Whenever that is, outputs and partial
matches bind exactly the variables they should, and with the standard evaluator neither the guard nor
a conclusion nor an aggregate fails on them but on the data. -/
theorem fails_on_data_only (ev : Evaluator) {r : Rule} (h : r.validate = .ok ())
    (stored changes : List (Change Quad)) (change : Change Quad) :
    ∃ made start primed last report next, r.compile = .ok made ∧
      made.prime ev (Contents.empty.replay stored) = .ok (start, primed) ∧
      primed.follow ev changes = .ok last ∧ last.update ev change = .ok (report, next) ∧
      last.condition = r.condition ∧ last.BindsExactly ∧ r.IsSafeOn last ∧
      (ev = .standard → ∀ failure ∈ start.failures ++ report.failures, failure.2.IsOfData) := by
  have hvalid : r.problem? = none := by
    unfold validate at h
    split at h
    · cases h
    · assumption
  have hreads := readsBound_of_valid hvalid
  have hsafe : ∀ {n : Network} {held : Quad → Prop}, n.Tracks ev held →
      n.condition = r.condition → r.IsSafeOn n :=
    fun htracks hcondition => hreads.isSafeOn htracks.bindsExactly hcondition
  obtain ⟨made, hcompile, hmade⟩ := RunState.compile_of_valid hvalid
  obtain ⟨start, primed, hprime, hcondition, htracks, _⟩ :=
    Network.prime_spec ev hmade (Contents.isIndexed_empty.replay stored)
  obtain ⟨last, hfollow, hcondition', htracks'⟩ := htracks.follow_spec changes
  obtain ⟨report, next, hupdate, hcondition'', htracks'', _⟩ := htracks'.update_spec change
  have hlast := hcondition'.trans hcondition
  have hnext := hcondition''.trans hlast
  refine ⟨made, start, primed, last, report, next, hcompile, hprime, hfollow, hupdate, hlast,
    htracks'.bindsExactly, hsafe htracks' hlast, fun hev failure hfailure => ?_⟩
  subst hev
  rcases List.mem_append.1 hfailure with hfailure | hfailure
  · exact (hsafe htracks hcondition).isOfData_of_lacksRow htracks hcondition
      (Network.lacksRow_of_prime hprime hfailure)
  · exact (hsafe htracks'' hnext).isOfData_of_lacksRow htracks'' hnext
      (Network.lacksRow_of_update hupdate hfailure)

/-- How old the oldest is whom somebody knows, of at least two who are not hidden. -/
def oldestFriend : Rule where
  id := "oldest friend"
  condition := {
    positives := [⟨.any, .variable ⟨"x"⟩, .node (.iri "knows"), .variable ⟨"y"⟩⟩,
      ⟨.any, .variable ⟨"y"⟩, .node (.iri "age"), .variable ⟨"age"⟩⟩]
    negatives := [[⟨.any, .variable ⟨"y"⟩, .node (.iri "hidden"), .any⟩]]
    aggregation := some ⟨[⟨"x"⟩], [(⟨"n"⟩, ⟨.count, none, false⟩),
      (⟨"oldest"⟩, ⟨.max, some (.variable ⟨"age"⟩), false⟩)]⟩ }
  guard := some (.binary .gt (.variable ⟨"n"⟩)
    (.constant (.literal (.typed "1" Vocabulary.xsdInteger))))
  conclusions := [⟨.variable ⟨"x"⟩, .node (.iri "oldest friend"), .variable ⟨"oldest"⟩⟩]
  active := true

/-- Anna knows Ben and Carl, and the age of Carl is not a number. -/
theorem oldestFriend_fails_on_data_only :
    let quad := fun s p o => Quad.mk (.iri "g") (.iri s) (.iri p) o
    let stored := [.gained (quad "anna" "knows" (.iri "ben")),
      .gained (quad "ben" "age" (.literal (.typed "41" Vocabulary.xsdInteger)))]
    let changes := [.gained (quad "anna" "knows" (.iri "carl"))]
    oldestFriend.validate = .ok () ∧ ∃ made start primed last report next,
      oldestFriend.compile = .ok made ∧
      made.prime .standard (Contents.empty.replay stored) = .ok (start, primed) ∧
      primed.follow .standard changes = .ok last ∧
      last.update .standard (.gained (quad "carl" "age" (.iri "unknown"))) = .ok (report, next) ∧
      last.BindsExactly ∧ oldestFriend.IsSafeOn last ∧
      ∀ failure ∈ start.failures ++ report.failures, failure.2.IsOfData := by
  intro quad stored changes
  have hvalid : oldestFriend.validate = .ok () := by decide +kernel
  obtain ⟨made, start, primed, last, report, next, hcompile, hprime, hfollow, hupdate, _, hbinds,
    hsafe, hfailures⟩ := fails_on_data_only .standard hvalid stored changes
      (.gained (quad "carl" "age" (.iri "unknown")))
  exact ⟨hvalid, made, start, primed, last, report, next, hcompile, hprime, hfollow, hupdate,
    hbinds, hsafe, hfailures rfl⟩

end Rule

/-! ## Engines -/

namespace Session

theorem networks_safe (config : Config) (ev : Evaluator) (stored : List (Change Quad))
    (feed : ChangeFeed) (events : List Event) {id : String} {slot : RuleSlot} {n : Network} :
    let opened := RuleEngine.new config ev ⟨Contents.empty.replay stored, feed⟩
    let s := events.foldl carryOut ⟨opened.1, opened.2, []⟩
    s.engine.slots.get? id = some slot → slot.network = some n →
      n.BindsExactly ∧ slot.rule.IsSafeOn n := by
  intro opened s hget hn
  have hs : s.IsBalanced := Result.foldl_inv (fun (s : Session) _ => s.IsBalanced)
    (fun _ event _ h => h.carryOut event) (isBalanced_new config ev stored feed)
  have hslot := hs.balanced.tracks.slots id slot hget
  obtain ⟨hcondition, held, _, htracks, _⟩ := hslot.running n hn
  have hreads := Rule.readsBound_of_valid hslot.valid
  exact ⟨htracks.bindsExactly, hreads.isSafeOn htracks.bindsExactly hcondition⟩

end Session

end Entail
