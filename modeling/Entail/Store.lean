import Entail.Store.Contents
import Entail.Store.Feed
/-!
# Stores

Contents together with the feed that every effective change is published to. The contents at any
moment can be kept aside and go on answering for that moment.
-/

namespace Entail

structure Store where
  contents : Contents
  feed : ChangeFeed
deriving DecidableEq

/-- Quads to remove and then quads to add. -/
structure Changeset where
  added : List Quad
  removed : List Quad
deriving DecidableEq

def Changeset.isEmpty (c : Changeset) : Bool :=
  c.added.isEmpty && c.removed.isEmpty

/-- How many quads a changeset brought in and took out. -/
structure ApplyReport where
  added : Nat
  removed : Nat
deriving DecidableEq

namespace Store

def empty : Store := ⟨.empty, .empty⟩

def contains (s : Store) (q : Quad) : Bool :=
  s.contents.contains q

def lookup (s : Store) (f : QuadFilter) : List Quad :=
  s.contents.lookup f

def size (s : Store) : Nat :=
  s.contents.size

/-- The store with `q`, and whether that is a change. -/
def insertValid (s : Store) (q : Quad) : Bool × Store :=
  if s.contains q then (false, s)
  else (true, ⟨s.contents.insert q, s.feed.publish (.gained q)⟩)

/-- Only well-formed quads are stored. -/
def insert (s : Store) (q : Quad) : Except Error (Bool × Store) :=
  match q.validate with
  | .ok () => .ok (s.insertValid q)
  | .error e => .error e

/-- The store without `q`, and whether that is a change. -/
def remove (s : Store) (q : Quad) : Bool × Store :=
  if s.contains q then (true, ⟨s.contents.erase q, s.feed.publish (.lost q)⟩)
  else (false, s)

/-- Remove each quad in turn, counting the changes. -/
def removeAll (s : Store) : List Quad → Nat × Store
  | [] => (0, s)
  | q :: rest =>
    let first := s.remove q
    let others := removeAll first.2 rest
    (first.1.toNat + others.1, others.2)

/-- Insert each quad in turn, counting the changes. -/
def insertAllValid (s : Store) : List Quad → Nat × Store
  | [] => (0, s)
  | q :: rest =>
    let first := s.insertValid q
    let others := insertAllValid first.2 rest
    (first.1.toNat + others.1, others.2)

/-- The first reason why a quad of the list cannot be stored. -/
def firstInvalid? (qs : List Quad) : Option Error :=
  qs.findSome? fun q =>
    match q.validate with
    | .ok () => none
    | .error e => some e

/-- Either every added quad is well-formed and all of the changeset is carried out, removals first,
or nothing is. -/
def apply (s : Store) (c : Changeset) : Except Error (ApplyReport × Store) :=
  match firstInvalid? c.added with
  | some e => .error e
  | none =>
    let removed := s.removeAll c.removed
    let added := removed.2.insertAllValid c.added
    .ok (⟨added.1, removed.1⟩, added.2)

def subscribe (s : Store) : Nat × Store :=
  let (id, feed) := s.feed.subscribe
  (id, { s with feed })

def unsubscribe (s : Store) (id : Nat) : Bool × Store :=
  let (wasOpen, feed) := s.feed.unsubscribe id
  (wasOpen, { s with feed })

/-- Take the changes waiting for a subscription. -/
def drain (s : Store) (id : Nat) : List (Change Quad) × Store :=
  let (changes, feed) := s.feed.drain id
  (changes, { s with feed })

def pending (s : Store) (id : Nat) : Nat :=
  s.feed.pending id

end Store

end Entail
