import Entail.Proofs.Queries.Requests
import Entail.Proofs.Store.Mutations
/-!
# Sessions of a query engine

What can happen to a query engine and its store, in any order: others change the store, the engine
catches up, and queries are followed, left and executed. Whatever happens, there is no fault, the
engine is up to date with what it has seen of the store, and every listener knows the solutions of the
query it registered with.
-/

namespace Entail

inductive QueryRequest where
  | mutate (m : Mutation)
  | flush
  | register (q : Query)
  | unregister (listener : Nat)
  | execute (q : Query)

/-- What following, leaving and executing a query are answered with. The number that a flush reports is
not among the answers: it says how much the engine had not taken in yet. -/
inductive QueryAnswer where
  | joined (answer : Except Error Nat)
  | left (known : Bool)
  | solutions (answer : Except Error (List Bindings))

/-- A query engine and its store after some requests. -/
structure QuerySession where
  engine : QueryEngine
  store : Store
  /-- What was stored when the engine last caught up with the store. -/
  seen : Contents
  /-- The query that each listener registered with. -/
  asked : OrderedMap Nat Query
  /-- What the listeners were told so far. -/
  told : List Notification
  answers : List QueryAnswer

namespace QuerySession

/-- An engine on a store with any contents, of which others may have learnt. -/
def start (config : Config) (ev : Evaluator) (stored : List (Change Quad)) (feed : ChangeFeed) :
    QuerySession :=
  let (engine, store) := QueryEngine.new config ev ⟨Contents.empty.replay stored, feed⟩
  ⟨engine, store, store.contents, ∅, [], []⟩

/-- The session after a request that made the engine catch up. -/
def caughtUp (s : QuerySession) (engine : QueryEngine) (store : Store) (told : List Notification) :
    QuerySession :=
  { s with engine, store, seen := store.contents, told := s.told ++ told }

def serve (s : QuerySession) : QueryRequest → Except Fault QuerySession
  | .mutate m => .ok { s with store := m.carryOut s.store }
  | .flush => do
    let o ← s.engine.flush s.store
    return s.caughtUp o.engine o.store o.notifications
  | .register q => do
    let o ← s.engine.register s.store q
    let answers := s.answers ++ [.joined o.answer]
    match o.answer with
    | .error _ => return { s with engine := o.engine, store := o.store, answers }
    | .ok l => return { s.caughtUp o.engine o.store o.notifications with
        asked := s.asked.insert l q, answers }
  | .unregister l =>
    let (known, engine) := s.engine.unregister l
    .ok { s with engine, answers := s.answers ++ [.left known] }
  | .execute q => do
    let o ← s.engine.execute s.store q
    return { s.caughtUp o.engine o.store o.notifications with
      answers := s.answers ++ [.solutions o.answer] }

def run (s : QuerySession) (requests : List QueryRequest) : Except Fault QuerySession :=
  requests.foldlM serve s

/-! ## What holds throughout -/

/-- The engine is up to date with what it has seen, the rest waits for it, and the listeners know the
solutions that it has seen. -/
structure Holds (s : QuerySession) (ev : Evaluator) : Prop where
  evaluator_eq : s.engine.evaluator = ev
  follows : s.engine.Follows s.seen.Has
  watches : s.engine.Watches s.seen s.store
  knows : ∀ l key, s.engine.listeners.get? l = some key →
    ∃ q, s.asked.get? l = some q ∧ q.condition.key = key ∧
      Change.Leads (heard l s.told) (fun _ => False) (q.condition.IsSolution ev s.seen.Has)
  silent : ∀ l, s.engine.nextListener ≤ l → heard l s.told = []

variable {config : Config} {ev : Evaluator} {s s' : QuerySession} {feed : ChangeFeed}

theorem holds_start (config : Config) (ev : Evaluator) (stored : List (Change Quad))
    (feed : ChangeFeed) : (start config ev stored feed).Holds ev := by
  have hstore : (start config ev stored feed).store =
      ⟨Contents.empty.replay stored, feed.subscribe.2⟩ := rfl
  have hsubscription : (start config ev stored feed).engine.subscription = feed.subscribe.1 := rfl
  have hlisteners : (start config ev stored feed).engine.listeners = ∅ := rfl
  have hwatches : (start config ev stored feed).engine.Watches
      (start config ev stored feed).store.contents (start config ev stored feed).store := by
    refine QueryEngine.watches_of_waiting_nil ?_ ?_ ?_
    · rw [hstore]
      exact Contents.isIndexed_empty.replay stored
    · rw [hstore, hsubscription]
      exact ChangeFeed.contains_subscribe feed
    · rw [QueryEngine.waiting, hstore, hsubscription]
      exact ChangeFeed.waiting_subscribe feed
  refine ⟨rfl, QueryEngine.follows_of_empty rfl hlisteners rfl _, hwatches, fun l key hl => ?_,
    fun _ _ => rfl⟩
  rw [hlisteners] at hl
  cases hl

private theorem Holds.caughtUp (h : s.Holds ev) {e : QueryEngine} {σ : Store}
    {told : List Notification} (hkeeps : s.engine.Keeps e)
    (hcontents : σ.contents = s.store.contents) (hfollows : e.Follows s.store.contents.Has)
    (hwatches : e.Watches s.store.contents σ)
    (htells : s.engine.Tells told s.seen.Has s.store.contents.Has) :
    (s.caughtUp e σ told).Holds ev := by
  rw [QuerySession.caughtUp, hcontents]
  constructor
  · exact hkeeps.evaluator_eq.trans h.evaluator_eq
  · exact hfollows
  · exact hwatches
  · intro l key hl
    have hl' : s.engine.listeners.get? l = some key := by
      rw [← hkeeps.listeners_eq]
      exact hl
    obtain ⟨q, hq, rfl, hleads⟩ := h.knows l key hl'
    have hmore := htells.leads l q.condition hl'
    rw [h.evaluator_eq] at hmore
    refine ⟨q, hq, rfl, ?_⟩
    rw [heard_append]
    exact hleads.append hmore
  · intro l hl
    have hl' : s.engine.nextListener ≤ l := by
      rw [← hkeeps.nextListener_eq]
      exact hl
    rw [heard_append, h.silent l hl', htells.others l (h.follows.get?_of_le hl'), List.append_nil]

private theorem Holds.mutate (h : s.Holds ev) (m : Mutation) :
    Holds { s with store := m.carryOut s.store } ev := by
  obtain ⟨changes, _, hchanges⟩ := m.announces s.store
  have hindexed : (m.carryOut s.store).contents.IsIndexed := by
    rw [hchanges.contents_eq]
    exact h.watches.indexed.replay changes
  exact ⟨h.evaluator_eq, h.follows, h.watches.announces hchanges trivial hindexed, h.knows,
    h.silent⟩

private theorem Holds.unregister (h : s.Holds ev) (l : Nat) (answers : List QueryAnswer) :
    Holds { s with engine := (s.engine.unregister l).2, answers } ev := by
  obtain ⟨_, hlisteners, hnext, hevaluator, hsubscription, hfollows⟩ :=
    h.follows.unregister_spec l
  constructor
  · exact hevaluator.trans h.evaluator_eq
  · exact hfollows
  · refine ⟨h.watches.indexed, ?_, ?_, ?_⟩
    · rw [hsubscription]
      exact h.watches.subscribed
    · rw [QueryEngine.waiting, hsubscription]
      exact h.watches.contents_eq
    · rw [QueryEngine.waiting, hsubscription]
      exact h.watches.effective
  · intro l' key hl'
    simp only [hlisteners, OrderedMap.get?_erase] at hl'
    split at hl'
    · cases hl'
    · exact h.knows l' key hl'
  · intro l' hl'
    refine h.silent l' ?_
    rw [← hnext]
    exact hl'

/-! ## What is answered -/

/-- All that answers depend on: neither the networks nor the caches of the engine are part of it. -/
structure Board where
  contents : Contents
  listeners : OrderedMap Nat ConditionKey
  nextListener : Nat

def board (s : QuerySession) : Board :=
  ⟨s.store.contents, s.engine.listeners, s.engine.nextListener⟩

/-- What a request is answered with, and what becomes of the board. -/
inductive Board.Serves (ev : Evaluator) :
    Board → QueryRequest → List QueryAnswer → Board → Prop where
  | mutate (b : Board) (m : Mutation) : Serves ev b (.mutate m) []
      { b with contents := (m.carryOut ⟨b.contents, .empty⟩).contents }
  | flush (b : Board) : Serves ev b .flush [] b
  | join (b : Board) {q : Query} : q.condition.problem? = none →
      Serves ev b (.register q) [.joined (.ok b.nextListener)] { b with
        listeners := b.listeners.insert b.nextListener q.condition.key
        nextListener := b.nextListener + 1 }
  | turnAway (b : Board) {q : Query} {p : String} : q.condition.problem? = some p →
      Serves ev b (.register q) [.joined (.error (.invalidQuery p))] b
  | leave (b : Board) (l : Nat) : Serves ev b (.unregister l) [.left (b.listeners.contains l)]
      { b with listeners := b.listeners.erase l }
  | solve (b : Board) {q : Query} {bag : List Bindings} : q.condition.problem? = none →
      q.condition.IsAnswer ev b.contents.Has bag → Serves ev b (.execute q) [.solutions (.ok bag)] b
  | refuse (b : Board) {q : Query} {p : String} : q.condition.problem? = some p →
      Serves ev b (.execute q) [.solutions (.error (.invalidQuery p))] b

theorem Board.Serves.unique {b b₁ b₂ : Board} {request : QueryRequest}
    {answers₁ answers₂ : List QueryAnswer} (h₁ : b.Serves ev request answers₁ b₁)
    (h₂ : b.Serves ev request answers₂ b₂) : answers₁ = answers₂ ∧ b₁ = b₂ := by
  cases h₁ with
  | mutate m =>
      cases h₂
      exact ⟨rfl, rfl⟩
  | flush =>
      cases h₂
      exact ⟨rfl, rfl⟩
  | leave l =>
      cases h₂
      exact ⟨rfl, rfl⟩
  | join hvalid =>
      cases h₂ with
      | join _ => exact ⟨rfl, rfl⟩
      | turnAway hproblem =>
          rw [hvalid] at hproblem
          cases hproblem
  | turnAway hproblem =>
      cases h₂ with
      | join hvalid =>
          rw [hvalid] at hproblem
          cases hproblem
      | turnAway hproblem' =>
          rw [hproblem] at hproblem'
          obtain rfl := Option.some_inj.1 hproblem'
          exact ⟨rfl, rfl⟩
  | solve hvalid hbag =>
      cases h₂ with
      | solve _ hbag' =>
          obtain rfl := hbag.unique hbag'
          exact ⟨rfl, rfl⟩
      | refuse hproblem =>
          rw [hvalid] at hproblem
          cases hproblem
  | refuse hproblem =>
      cases h₂ with
      | solve hvalid _ =>
          rw [hvalid] at hproblem
          cases hproblem
      | refuse hproblem' =>
          rw [hproblem] at hproblem'
          obtain rfl := Option.some_inj.1 hproblem'
          exact ⟨rfl, rfl⟩

/-- The request is served without a fault, and everything holds that held before. -/
structure Served (s : QuerySession) (ev : Evaluator) (request : QueryRequest) (s' : QuerySession)
    (answers : List QueryAnswer) : Prop where
  serve_eq : s.serve request = .ok s'
  holds : s'.Holds ev
  answers_eq : s'.answers = s.answers ++ answers
  board : s.board.Serves ev request answers s'.board

private theorem Holds.serve_mutate (h : s.Holds ev) (m : Mutation) :
    ∃ s' answers, s.Served ev (.mutate m) s' answers := by
  refine ⟨{ s with store := m.carryOut s.store }, [], rfl, h.mutate m, (List.append_nil _).symm, ?_⟩
  have hcontents : (m.carryOut s.store).contents =
      (m.carryOut ⟨s.store.contents, .empty⟩).contents := m.contents_carryOut rfl
  have hboard : board { s with store := m.carryOut s.store } =
      { s.board with contents := (m.carryOut ⟨s.board.contents, .empty⟩).contents } :=
    congrArg (Board.mk · s.engine.listeners s.engine.nextListener) hcontents
  rw [hboard]
  exact .mutate s.board m

private theorem board_eq {e : QueryEngine} {σ : Store} (hkeeps : s.engine.Keeps e)
    (hcontents : σ.contents = s.store.contents) :
    Board.mk σ.contents e.listeners e.nextListener = s.board := by
  rw [board, hcontents, hkeeps.listeners_eq, hkeeps.nextListener_eq]

private theorem Holds.serve_flush (h : s.Holds ev) :
    ∃ s' answers, s.Served ev .flush s' answers := by
  obtain ⟨told, e, hflush, _, hkeeps, hfollows, hwatches, htells⟩ := h.follows.flush_spec h.watches
  refine ⟨s.caughtUp e (s.store.drain s.engine.subscription).2 told, [], ?_,
    h.caughtUp hkeeps rfl hfollows hwatches htells, (List.append_nil _).symm, ?_⟩
  · rw [serve, hflush]
    rfl
  · have hboard : board (s.caughtUp e (s.store.drain s.engine.subscription).2 told) = s.board :=
      board_eq hkeeps rfl
    rw [hboard]
    exact .flush s.board

private theorem Holds.serve_execute (h : s.Holds ev) (q : Query) :
    ∃ s' answers, s.Served ev (.execute q) s' answers := by
  obtain ⟨told, e, answer, hexecute, hkeeps, hfollows, hwatches, htells, hinvalid, hvalid⟩ :=
    h.follows.execute_spec h.watches q
  have hcaught := h.caughtUp (σ := (s.store.drain s.engine.subscription).2) hkeeps rfl hfollows
    hwatches htells
  refine ⟨{ s.caughtUp e (s.store.drain s.engine.subscription).2 told with
      answers := s.answers ++ [.solutions answer] }, [.solutions answer], ?_,
    ⟨hcaught.evaluator_eq, hcaught.follows, hcaught.watches, hcaught.knows, hcaught.silent⟩, rfl,
    ?_⟩
  · rw [serve, hexecute]
    rfl
  · have hboard : board { s.caughtUp e (s.store.drain s.engine.subscription).2 told with
        answers := s.answers ++ [.solutions answer] } = s.board := board_eq hkeeps rfl
    rw [hboard]
    cases hproblem : q.condition.problem? with
    | some p =>
        rw [hinvalid p hproblem]
        exact .refuse s.board hproblem
    | none =>
        obtain ⟨bag, rfl, hbag⟩ := hvalid hproblem
        rw [h.evaluator_eq] at hbag
        exact .solve s.board hproblem hbag

private theorem Holds.serve_unregister (h : s.Holds ev) (l : Nat) :
    ∃ s' answers, s.Served ev (.unregister l) s' answers := by
  obtain ⟨hknown, hlisteners, hnext, _⟩ := h.follows.unregister_spec l
  refine ⟨{ s with
      engine := (s.engine.unregister l).2
      answers := s.answers ++ [.left (s.engine.unregister l).1] },
    [.left (s.engine.unregister l).1], rfl, h.unregister l _, rfl, ?_⟩
  simp only [board, hknown, hlisteners, hnext]
  exact .leave s.board l

private theorem Holds.serve_register (h : s.Holds ev) (q : Query) :
    ∃ s' answers, s.Served ev (.register q) s' answers := by
  cases hproblem : q.condition.problem? with
  | some p =>
      refine ⟨{ s with answers := s.answers ++ [.joined (.error (.invalidQuery p))] },
        [.joined (.error (.invalidQuery p))], ?_,
        ⟨h.evaluator_eq, h.follows, h.watches, h.knows, h.silent⟩, rfl, .turnAway s.board hproblem⟩
      rw [serve, QueryEngine.register_of_problem? hproblem]
      rfl
  | none =>
      obtain ⟨told, e, hregister, hevaluator, hlisteners, hnext, hfollows, hwatches, hothers,
        hleads, hnew⟩ := h.follows.register_spec h.watches hproblem
      refine ⟨{ s.caughtUp e (s.store.drain s.engine.subscription).2 told with
          asked := s.asked.insert s.engine.nextListener q
          answers := s.answers ++ [.joined (.ok s.engine.nextListener)] },
        [.joined (.ok s.engine.nextListener)], ?_,
        ⟨hevaluator.trans h.evaluator_eq, hfollows, hwatches, fun l key hl => ?_, fun l hl => ?_⟩,
        rfl, ?_⟩
      · rw [serve, hregister]
        rfl
      · simp only [QuerySession.caughtUp, hlisteners, OrderedMap.get?_insert] at hl
        simp only [QuerySession.caughtUp, OrderedMap.get?_insert, heard_append]
        split at hl
        · rename_i heq
          subst heq
          rw [h.silent _ (Nat.le_refl _), List.nil_append, if_pos rfl, ← h.evaluator_eq]
          exact ⟨q, rfl, Option.some_inj.1 hl, hnew⟩
        · rename_i hne
          obtain ⟨q', hq', hkey, hknown⟩ := h.knows l key hl
          have hmore := hleads l q'.condition (hkey ▸ hl)
          rw [h.evaluator_eq] at hmore
          rw [if_neg hne]
          exact ⟨q', hq', hkey, hknown.append hmore⟩
      · simp only [QuerySession.caughtUp, hnext] at hl
        have hlt : s.engine.nextListener < l := hl
        simp only [QuerySession.caughtUp, heard_append, h.silent l hlt.le,
          hothers l hlt.ne' (h.follows.get?_of_le hlt.le), List.append_nil]
      · have hboard : board { s.caughtUp e (s.store.drain s.engine.subscription).2 told with
            asked := s.asked.insert s.engine.nextListener q
            answers := s.answers ++ [.joined (.ok s.engine.nextListener)] } =
            { s.board with
              listeners := s.board.listeners.insert s.board.nextListener q.condition.key
              nextListener := s.board.nextListener + 1 } := by
          simp only [board, QuerySession.caughtUp, hlisteners, hnext]
          rfl
        rw [hboard]
        exact .join s.board hproblem

theorem Holds.serve_spec (h : s.Holds ev) (request : QueryRequest) :
    ∃ s' answers, s.Served ev request s' answers := by
  cases request with
  | mutate m => exact h.serve_mutate m
  | flush => exact h.serve_flush
  | register q => exact h.serve_register q
  | unregister l => exact h.serve_unregister l
  | execute q => exact h.serve_execute q

theorem Holds.run_spec (h : s.Holds ev) (requests : List QueryRequest) :
    ∃ s', s.run requests = .ok s' ∧ s'.Holds ev :=
  Result.foldlM_ok (fun s _ => Holds s ev) (fun s request _ h => by
    obtain ⟨s', _, hserved⟩ := h.serve_spec request
    exact ⟨s', hserved.serve_eq, hserved.holds⟩) h

end QuerySession

end Entail
