import Entail.Network
import Entail.Network.Solutions
import Entail.Queries.Cache
import Entail.Store
/-!
# Query engines

A live result holds the solutions of a condition over a store, kept up to date by a network. Queries
that listeners follow have one, which all queries with the same condition key share; queries executed
once in a while have one in a cache.
-/

namespace Entail

structure LiveResult where
  network : Network
  solutions : Solutions
deriving DecidableEq

namespace LiveResult

/-- The result over the contents of a store. -/
def prime (ev : Evaluator) (contents : Contents) (network : Network) : Except Fault LiveResult := do
  let (p, network) ← network.prime ev contents
  let (_, solutions) ← Solutions.empty.receiveAll p.changes
  return ⟨network, solutions⟩

/-- The result after a change of the store, and what it means for the solutions. -/
def update (ev : Evaluator) (r : LiveResult) (c : Change Quad) :
    Except Fault (List (Change Bindings) × LiveResult) := do
  let (p, network) ← r.network.update ev c
  let (changes, solutions) ← r.solutions.receiveAll p.changes
  return (changes, ⟨network, solutions⟩)

end LiveResult

/-- A query object. Objects with equal conditions are told apart by their identity. -/
structure Query where
  identity : Nat
  condition : Condition
deriving DecidableEq

/-- A live result and the listeners that follow it, in the order they registered. -/
structure QueryInstance where
  result : LiveResult
  listeners : List Nat
deriving DecidableEq

structure QueryEngine where
  config : Config
  evaluator : Evaluator
  /-- The subscription through which the engine learns of changes to the store. -/
  subscription : Nat
  instances : OrderedMap ConditionKey QueryInstance
  /-- What each listener follows. -/
  listeners : OrderedMap Nat ConditionKey
  nextListener : Nat
  cache : ResultCache Query LiveResult

/-- A solution gained or lost, as told to one listener. -/
structure Notification where
  listener : Nat
  change : Change Bindings
deriving DecidableEq

/-- The engine and the store after a request, what the listeners were told, and the answer. -/
structure QueryOutcome (α : Type) where
  engine : QueryEngine
  store : Store
  notifications : List Notification
  answer : α

namespace Query

/-- The network of a well-formed query, before it has seen a quad. -/
def compile (q : Query) : Except Error Network :=
  Network.compile q.condition

end Query

namespace QueryEngine

/-- An engine without queries on a store. -/
def new (config : Config) (ev : Evaluator) (store : Store) : QueryEngine × Store :=
  let (id, store) := store.subscribe
  (⟨config, ev, id, ∅, ∅, 0, .empty config.cacheCapacity⟩, store)

/-- The store without the subscription of the engine. -/
def detach (e : QueryEngine) (store : Store) : Store :=
  (store.unsubscribe e.subscription).2

/-- The number of live results that have listeners. -/
def queryCount (e : QueryEngine) : Nat :=
  e.instances.size

/-- The solutions at the last catching up, if anyone follows the query. -/
def solutions? (e : QueryEngine) (q : Query) : Option (List Bindings) :=
  (e.instances.get? q.condition.key).map fun i => i.result.solutions.toList

def listenerCount (e : QueryEngine) (q : Query) : Nat :=
  ((e.instances.get? q.condition.key).map fun i => i.listeners.length).getD 0

/-- Tell each listener of each change. -/
def notify (listeners : List Nat) (changes : List (Change Bindings)) : List Notification :=
  changes.flatMap fun c => listeners.map fun l => ⟨l, c⟩

/-- Pass a change of the store to the live result under `key`. -/
def updateInstance (ev : Evaluator) (c : Change Quad)
    (instances : OrderedMap ConditionKey QueryInstance) (key : ConditionKey) :
    Except Fault (List Notification × OrderedMap ConditionKey QueryInstance) :=
  match instances.get? key with
  | none => .ok ([], instances)
  | some i => do
    let (changes, result) ← i.result.update ev c
    return (notify i.listeners changes, instances.insert key { i with result })

/-- Pass a change of the store to each cached result. -/
def updateCached (ev : Evaluator) (c : Change Quad) :
    List (CacheEntry Query LiveResult) → Except Fault (List (CacheEntry Query LiveResult))
  | [] => .ok []
  | entry :: rest => do
    let (_, value) ← entry.value.update ev c
    let rest ← updateCached ev c rest
    return { entry with value } :: rest

/-- Pass a change of the store to every live result. -/
def receive (e : QueryEngine) (c : Change Quad) :
    Except Fault (List Notification × QueryEngine) := do
  let (told, instances) ← runStage (updateInstance e.evaluator c) e.instances e.instances.keys
  let entries ← updateCached e.evaluator c e.cache.entries
  return (told, { e with instances, cache := { e.cache with entries } })

/-- Catch up with the store. The answer is the number of changes taken in. -/
def flush (e : QueryEngine) (store : Store) : Except Fault (QueryOutcome Nat) := do
  let (changes, store) := store.drain e.subscription
  let (told, e) ← runStage receive e changes
  return ⟨e, store, told, changes.length⟩

/-- The live result of a query that listeners can join. -/
def instanceFor (e : QueryEngine) (contents : Contents) (key : ConditionKey) (network : Network) :
    Except Fault QueryInstance :=
  match e.instances.get? key with
  | some i => .ok i
  | none => do
    let result ← LiveResult.prime e.evaluator contents network
    return ⟨result, []⟩

/-- Follow a query. The new listener is told of every solution there is, and from then on of every
change. An ill-formed query is refused before anything else happens. -/
def register (e : QueryEngine) (store : Store) (q : Query) :
    Except Fault (QueryOutcome (Except Error Nat)) :=
  match q.compile with
  | .error error => .ok ⟨e, store, [], .error error⟩
  | .ok network => do
    let flushed ← e.flush store
    let e := flushed.engine
    let key := q.condition.key
    let i ← e.instanceFor flushed.store.contents key network
    let id := e.nextListener
    let replay := notify [id] (i.result.solutions.toList.map .gained)
    let e := { e with
      instances := e.instances.insert key { i with listeners := i.listeners ++ [id] }
      listeners := e.listeners.insert id key
      nextListener := id + 1 }
    return ⟨e, flushed.store, flushed.notifications ++ replay, .ok id⟩

/-- The live results without a listener; one that nobody follows any more is dropped. -/
def withoutListener (instances : OrderedMap ConditionKey QueryInstance) (key : ConditionKey)
    (id : Nat) : OrderedMap ConditionKey QueryInstance :=
  match instances.get? key with
  | none => instances
  | some i =>
    let listeners := i.listeners.filter fun l => l != id
    if listeners.isEmpty then instances.erase key
    else instances.insert key { i with listeners }

/-- Whether the listener was registered, and the engine without it. -/
def unregister (e : QueryEngine) (id : Nat) : Bool × QueryEngine :=
  match e.listeners.get? id with
  | none => (false, e)
  | some key => (true, { e with
      listeners := e.listeners.erase id
      instances := withoutListener e.instances key id })

/-- The solutions of a query over the store, each repeated once for every match that supports it.
The result of a well-formed query is cached for its next execution. -/
def execute (e : QueryEngine) (store : Store) (q : Query) :
    Except Fault (QueryOutcome (Except Error (List Bindings))) := do
  let flushed ← e.flush store
  let (found, cache) := flushed.engine.cache.probe q
  let e := { flushed.engine with cache }
  match found with
  | some result =>
    return ⟨e, flushed.store, flushed.notifications, .ok result.solutions.bag⟩
  | none =>
    match q.compile with
    | .error error => return ⟨e, flushed.store, flushed.notifications, .error error⟩
    | .ok network =>
      let result ← LiveResult.prime e.evaluator flushed.store.contents network
      let (_, cache) := e.cache.insert q result
      return ⟨{ e with cache }, flushed.store, flushed.notifications, .ok result.solutions.bag⟩

end QueryEngine

end Entail
