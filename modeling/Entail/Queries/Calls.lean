import Entail.Queries.Cache
/-!
# Calls of a cache

What is asked of a cache, call after call, and what the calls with their answers say about the value
of a key, whatever the cache keeps inside. A key is inserted only while it has no entry.
-/

namespace Entail

inductive CacheCall (κ ν : Type) where
  | probe (k : κ)
  /-- Look up `k` and change the value that is found. -/
  | write (k : κ) (f : ν → ν)
  | insert (k : κ) (v : ν)
  | remove (k : κ)

/-- A call with its answer: the value that was found, or the entry that was handed back. -/
inductive CacheEvent (κ ν : Type) where
  | probed (k : κ) (found : Option ν)
  | written (k : κ) (f : ν → ν) (found : Option ν)
  | inserted (k : κ) (v : ν) (back : Option (κ × ν))
  | removed (k : κ) (found : Option ν)

variable {κ ν : Type}

namespace CacheCall

/-- The key whose look-up counts. -/
def lookedUp? : CacheCall κ ν → Option κ
  | probe k => some k
  | write k _ => some k
  | _ => none

/-- What the caller puts in. -/
def given : CacheCall κ ν → List (κ × ν)
  | insert k v => [(k, v)]
  | _ => []

/-- What the caller makes of a pair that is in the cache. -/
def rewrite [DecidableEq κ] : CacheCall κ ν → κ × ν → κ × ν
  | write k f, e => if e.1 = k then (e.1, f e.2) else e
  | _, e => e

end CacheCall

namespace CacheEvent

/-- What the caller gets out. -/
def handed : CacheEvent κ ν → List (κ × ν)
  | inserted _ _ back => back.toList
  | removed k found => (found.map fun v => (k, v)).toList
  | _ => []

variable [DecidableEq κ]

/-- What the caller wants to be stored for `k`, given what is stored before the event. -/
def stored (k : κ) (held : Option ν) : CacheEvent κ ν → Option ν
  | written k' f _ => if k' = k then held.map f else held
  | inserted k' v _ => if k' = k then some v else held
  | _ => held

/-- The value stored last for `k` after one more event; there is none once the caller has it back. -/
def update (k : κ) (held : Option ν) (e : CacheEvent κ ν) : Option ν :=
  if k ∈ e.handed.map Prod.fst then none else e.stored k held

/-- The value stored last for `k` in the course of the events. -/
def latest? (events : List (CacheEvent κ ν)) (k : κ) : Option ν :=
  events.foldl (update k) none

end CacheEvent

namespace ResultCache

/-- The keys in rank order. -/
def keys (c : ResultCache κ ν) : List κ :=
  c.entries.map CacheEntry.key

/-- The keys with their values in rank order. -/
def pairs (c : ResultCache κ ν) : List (κ × ν) :=
  c.entries.map fun e => (e.key, e.value)

variable [DecidableEq κ]

def carryOut (c : ResultCache κ ν) : CacheCall κ ν → CacheEvent κ ν × ResultCache κ ν
  | .probe k => (.probed k (c.probe k).1, (c.probe k).2)
  | .write k f => (.written k f (c.probe k).1, (c.probe k).2.modify k f)
  | .insert k v => (.inserted k v (c.insert k v).1, (c.insert k v).2)
  | .remove k => (.removed k (c.remove k).1, (c.remove k).2)

/-- The cache after the calls. -/
def run (c : ResultCache κ ν) (calls : List (CacheCall κ ν)) : ResultCache κ ν :=
  calls.foldl (fun c call => (c.carryOut call).2) c

/-- The calls with their answers. -/
def events (c : ResultCache κ ν) : List (CacheCall κ ν) → List (CacheEvent κ ν)
  | [] => []
  | call :: rest => (c.carryOut call).1 :: (c.carryOut call).2.events rest

/-- No key is inserted that has an entry. -/
def Allows (c : ResultCache κ ν) : CacheCall κ ν → Prop
  | .insert k _ => k ∉ c.keys
  | _ => True

instance (c : ResultCache κ ν) : (call : CacheCall κ ν) → Decidable (c.Allows call)
  | .probe _ => .isTrue trivial
  | .write _ _ => .isTrue trivial
  | .insert k _ => inferInstanceAs (Decidable (k ∉ c.keys))
  | .remove _ => .isTrue trivial

/-- No call inserts a key that has an entry when its turn comes. -/
def Admits (c : ResultCache κ ν) : List (CacheCall κ ν) → Prop
  | [] => True
  | call :: rest => c.Allows call ∧ (c.carryOut call).2.Admits rest

instance decidableAdmits (c : ResultCache κ ν) :
    (calls : List (CacheCall κ ν)) → Decidable (c.Admits calls)
  | [] => .isTrue trivial
  | call :: rest =>
    have := decidableAdmits (c.carryOut call).2 rest
    inferInstanceAs (Decidable (c.Allows call ∧ _))

end ResultCache

end Entail
