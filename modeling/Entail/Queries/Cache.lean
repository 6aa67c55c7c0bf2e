/-!
# Result caches

A bounded list of values by key, ranked by how often they are asked for. A look-up raises the hit
count of the entry it finds and lowers those of the entries in front of it; an entry moves one place
forward when it overtakes the one before it. A full cache gives up its last entry.
-/

namespace Entail

structure CacheEntry (κ ν : Type) where
  key : κ
  value : ν
  hits : Nat
deriving DecidableEq

structure ResultCache (κ ν : Type) where
  capacity : Nat
  /-- The entries in rank order. -/
  entries : List (CacheEntry κ ν)
deriving DecidableEq

namespace ResultCache

variable {κ ν : Type}

/-- Hit counts stop here. -/
def maxHits : Nat := 4294967295

def empty (capacity : Nat) : ResultCache κ ν := ⟨capacity, []⟩

def size (c : ResultCache κ ν) : Nat :=
  c.entries.length

def isEmpty (c : ResultCache κ ν) : Bool :=
  c.entries.isEmpty

section Keyed

variable [DecidableEq κ]

/-- Count a look-up of `k` up to the entry it finds, or through the whole list. -/
def count (k : κ) : List (CacheEntry κ ν) → List (CacheEntry κ ν)
  | [] => []
  | e :: rest =>
    if e.key = k then { e with hits := min (e.hits + 1) maxHits } :: rest
    else { e with hits := e.hits - 1 } :: count k rest

/-- Move the entry of `k` in front of the one before it if that has fewer hits. -/
def promote (k : κ) : List (CacheEntry κ ν) → List (CacheEntry κ ν)
  | e :: f :: rest =>
    if e.key = k then e :: f :: rest
    else if f.key = k then if e.hits < f.hits then f :: e :: rest else e :: f :: rest
    else e :: promote k (f :: rest)
  | l => l

/-- Change the value of the first entry of `k`. -/
def modifyFirst (k : κ) (f : ν → ν) : List (CacheEntry κ ν) → List (CacheEntry κ ν)
  | [] => []
  | e :: rest =>
    if e.key = k then { e with value := f e.value } :: rest else e :: modifyFirst k f rest

def get? (c : ResultCache κ ν) (k : κ) : Option ν :=
  (c.entries.find? fun e => e.key = k).map CacheEntry.value

/-- Look up `k`. -/
def probe (c : ResultCache κ ν) (k : κ) : Option ν × ResultCache κ ν :=
  (c.get? k, { c with entries := promote k (count k c.entries) })

/-- Add an entry for a key that has none. What does not fit, or has to give way, is handed back. -/
def insert (c : ResultCache κ ν) (k : κ) (v : ν) : Option (κ × ν) × ResultCache κ ν :=
  if c.capacity = 0 then (some (k, v), c)
  else if c.entries.length < c.capacity then
    (none, { c with entries := c.entries ++ [⟨k, v, 1⟩] })
  else
    (c.entries.getLast?.map fun e => (e.key, e.value),
      { c with entries := c.entries.dropLast ++ [⟨k, v, 1⟩] })

/-- Take out the entry of `k`. -/
def remove (c : ResultCache κ ν) (k : κ) : Option ν × ResultCache κ ν :=
  (c.get? k, { c with entries := c.entries.eraseP fun e => e.key = k })

/-- Change the value of `k`, if it has one. -/
def modify (c : ResultCache κ ν) (k : κ) (f : ν → ν) : ResultCache κ ν :=
  { c with entries := modifyFirst k f c.entries }

end Keyed

/-- Change every value. -/
def mapValues (c : ResultCache κ ν) (f : ν → ν) : ResultCache κ ν :=
  { c with entries := c.entries.map fun e => { e with value := f e.value } }

/-- The keys and hit counts, with each key shown by `keyText`. -/
def text (c : ResultCache κ ν) (keyText : κ → String) : String :=
  let entries := c.entries.map fun e =>
    "CacheEntry \x7b key: " ++ keyText e.key ++ ", hits: " ++ toString e.hits ++ ", .. \x7d"
  "ResultCache \x7b capacity: " ++ toString c.capacity ++ ", entries: [" ++
    String.intercalate ", " entries ++ "] \x7d"

end ResultCache

end Entail
