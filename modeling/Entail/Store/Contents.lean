import Entail.Change
import Entail.Ordered.Index
import Entail.Quad
/-!
# Store contents

A set of quads with an index for each position. Look-ups by filter scan the smallest bucket among
the positions that the filter fixes. A list of changes can be carried out on contents; the changes of
a feed are effective: each of them brings in a quad that was absent or takes out one that was present.
-/

namespace Entail

/-- A place in a quad. -/
inductive Position where
  | graph
  | subject
  | predicate
  | object
deriving DecidableEq

namespace Position

def all : List Position := [graph, subject, predicate, object]

end Position

def Quad.at (q : Quad) : Position → Node
  | .graph => q.graph
  | .subject => q.subject
  | .predicate => q.predicate
  | .object => q.object

def QuadFilter.at (f : QuadFilter) : Position → Option Node
  | .graph => f.graph
  | .subject => f.subject
  | .predicate => f.predicate
  | .object => f.object

structure Contents where
  quads : OrderedSet Quad
  byGraph : Index Node Quad
  bySubject : Index Node Quad
  byPredicate : Index Node Quad
  byObject : Index Node Quad
deriving DecidableEq

namespace Contents

def empty : Contents := ⟨∅, ∅, ∅, ∅, ∅⟩

def index (c : Contents) : Position → Index Node Quad
  | .graph => c.byGraph
  | .subject => c.bySubject
  | .predicate => c.byPredicate
  | .object => c.byObject

def contains (c : Contents) (q : Quad) : Bool :=
  c.quads.contains q

def size (c : Contents) : Nat :=
  c.quads.size

def isEmpty (c : Contents) : Bool :=
  c.quads.isEmpty

/-- All quads in order. -/
def toList (c : Contents) : List Quad :=
  c.quads.toList

def insert (c : Contents) (q : Quad) : Contents where
  quads := c.quads.insert q
  byGraph := c.byGraph.insert q.graph q
  bySubject := c.bySubject.insert q.subject q
  byPredicate := c.byPredicate.insert q.predicate q
  byObject := c.byObject.insert q.object q

def erase (c : Contents) (q : Quad) : Contents where
  quads := c.quads.erase q
  byGraph := c.byGraph.erase q.graph q
  bySubject := c.bySubject.erase q.subject q
  byPredicate := c.byPredicate.erase q.predicate q
  byObject := c.byObject.erase q.object q

/-- The smaller of two sets, the first if they are equally large. -/
def smaller (s t : OrderedSet Quad) : OrderedSet Quad :=
  if t.size < s.size then t else s

/-- A set that holds every quad the filter admits: the smallest bucket of a fixed position. -/
def candidates (c : Contents) (f : QuadFilter) : OrderedSet Quad :=
  match Position.all.filterMap fun p => (f.at p).map (c.index p).bucket with
  | [] => c.quads
  | s :: rest => rest.foldl smaller s

/-- The quads that pass the filter, in order. -/
def lookup (c : Contents) (f : QuadFilter) : List Quad :=
  (c.candidates f).toList.filter f.passes

/-! ## Replays -/

def apply (c : Contents) : Change Quad → Contents
  | .gained q => c.insert q
  | .lost q => c.erase q

def replay (c : Contents) (changes : List (Change Quad)) : Contents :=
  changes.foldl apply c

/-- Each change in turn makes a difference. -/
def AllEffective (c : Contents) : List (Change Quad) → Prop
  | [] => True
  | change :: rest => c.contains change.value = !change.isGain ∧ (c.apply change).AllEffective rest

end Contents

end Entail
