import Entail.Proofs.Queries.Sessions
/-!
# Answers

Executing a query is answered over the store as it is, whatever the cache did before. What requests are
answered with is settled by the board alone, so two sessions with the same board go on alike, and an
ill-formed query that is executed leaves the board as it is.
-/

namespace Entail.QuerySession

variable {ev : Evaluator} {s t : QuerySession}

theorem Holds.run_alike (h : s.Holds ev) (h' : t.Holds ev) (hboard : s.board = t.board)
    (requests : List QueryRequest) :
    ∃ s' t' answers, s.run requests = .ok s' ∧ t.run requests = .ok t' ∧
      s'.answers = s.answers ++ answers ∧ t'.answers = t.answers ++ answers := by
  induction requests generalizing s t with
  | nil => exact ⟨s, t, [], rfl, rfl, (List.append_nil _).symm, (List.append_nil _).symm⟩
  | cons request rest ih =>
      obtain ⟨s₁, first, hs₁⟩ := h.serve_spec request
      obtain ⟨t₁, first', ht₁⟩ := h'.serve_spec request
      obtain ⟨rfl, hboard₁⟩ := hs₁.board.unique (hboard ▸ ht₁.board)
      obtain ⟨s₂, t₂, more, hs₂, ht₂, hanswers, hanswers'⟩ := ih hs₁.holds ht₁.holds hboard₁
      refine ⟨s₂, t₂, first ++ more, ?_, ?_, ?_, ?_⟩
      · rw [run, List.foldlM_cons, hs₁.serve_eq]
        exact hs₂
      · rw [run, List.foldlM_cons, ht₁.serve_eq]
        exact ht₂
      · rw [hanswers, hs₁.answers_eq, List.append_assoc]
      · rw [hanswers', ht₁.answers_eq, List.append_assoc]

/-- Whatever happened before, and however many results the cache can hold: executing a well-formed
query is answered with the solutions over what is stored, in order, each of them once for every match
that supports it. Executing an ill-formed one is refused, and all later requests are answered as if
it had not been executed. -/
theorem execute_eq_fresh_evaluation (config : Config) (ev : Evaluator)
    (stored : List (Change Quad)) (feed : ChangeFeed) (requests : List QueryRequest) (q : Query) :
    ∃ s, (start config ev stored feed).run requests = .ok s ∧
      (q.condition.problem? = none → ∃ outcome bag, s.engine.execute s.store q = .ok outcome ∧
        outcome.answer = .ok bag ∧ q.condition.IsAnswer ev s.store.contents.Has bag) ∧
      ∀ p, q.condition.problem? = some p → ∃ outcome, s.engine.execute s.store q = .ok outcome ∧
        outcome.answer = .error (.invalidQuery p) ∧
        ∀ later, ∃ after without answers, s.run (.execute q :: later) = .ok after ∧
          s.run later = .ok without ∧
          after.answers = s.answers ++ .solutions (.error (.invalidQuery p)) :: answers ∧
          without.answers = s.answers ++ answers := by
  obtain ⟨s, hrun, hholds⟩ := (holds_start config ev stored feed).run_spec requests
  obtain ⟨told, e, answer, hexecute, _, _, _, _, hinvalid, hvalid⟩ :=
    hholds.follows.execute_spec hholds.watches q
  refine ⟨s, hrun, fun hproblem => ?_, fun p hproblem => ?_⟩
  · obtain ⟨bag, rfl, hbag⟩ := hvalid hproblem
    rw [hholds.evaluator_eq] at hbag
    exact ⟨_, bag, hexecute, rfl, hbag⟩
  · refine ⟨_, hexecute, hinvalid p hproblem, fun later => ?_⟩
    obtain ⟨s₁, answers₁, hserved⟩ := hholds.serve_spec (.execute q)
    obtain ⟨rfl, hboard⟩ := hserved.board.unique (.refuse s.board hproblem)
    obtain ⟨after, without, answers, hafter, hwithout, hanswers, hanswers'⟩ :=
      hserved.holds.run_alike hholds hboard later
    refine ⟨after, without, answers, ?_, hwithout, ?_, hanswers'⟩
    · rw [run, List.foldlM_cons, hserved.serve_eq]
      exact hafter
    · rw [hanswers, hserved.answers_eq, List.append_assoc]
      rfl

/-- Who knows somebody, once for everyone known. -/
def acquainted (identity : Nat) : Query where
  identity := identity
  condition :=
    { positives := [⟨.any, .variable ⟨"x"⟩, .node (.iri "knows"), .any⟩]
      negatives := []
      aggregation := none }

/-- A query without patterns. -/
def blank : Query := ⟨2, [], [], none⟩

/-- Two equal queries take turns in a cache with one place: the first one is executed, gives way to
the second and is executed again after the store has changed. -/
theorem execute_acquainted :
    let config : Config := { Config.default with cacheCapacity := 1 }
    let quad := fun s o => Quad.mk (.iri "g") (.iri s) (.iri "knows") (.iri o)
    let requests : List QueryRequest := [.execute (acquainted 0), .execute (acquainted 1),
      .mutate (.insert (quad "anna" "carl"))]
    let initial := start config .standard [.gained (quad "anna" "ben")] .empty
    ∃ s outcome bag refused, initial.run requests = .ok s ∧
      s.engine.execute s.store (acquainted 0) = .ok outcome ∧ outcome.answer = .ok bag ∧
      (acquainted 0).condition.IsAnswer .standard s.store.contents.Has bag ∧
      s.engine.execute s.store blank = .ok refused ∧
      refused.answer = .error (.invalidQuery "condition has no patterns") ∧
      ∃ after without answers, s.run [.execute blank, .execute (acquainted 1)] = .ok after ∧
        s.run [.execute (acquainted 1)] = .ok without ∧
        after.answers = s.answers ++
          .solutions (.error (.invalidQuery "condition has no patterns")) :: answers ∧
        without.answers = s.answers ++ answers := by
  intro config quad requests initial
  obtain ⟨s, hrun, hvalid, _⟩ := execute_eq_fresh_evaluation config .standard
    [.gained (quad "anna" "ben")] .empty requests (acquainted 0)
  obtain ⟨s', hrun', _, hinvalid⟩ := execute_eq_fresh_evaluation config .standard
    [.gained (quad "anna" "ben")] .empty requests blank
  obtain rfl : s = s' := Result.eq_of_eq_ok hrun hrun'
  obtain ⟨outcome, bag, hexecute, hanswer, hbag⟩ := hvalid (by decide +kernel)
  obtain ⟨refused, hrefused, herror, hlater⟩ :=
    hinvalid "condition has no patterns" (by decide +kernel)
  exact ⟨s, outcome, bag, refused, hrun, hexecute, hanswer, hbag, hrefused, herror,
    hlater [.execute (acquainted 1)]⟩

end Entail.QuerySession
