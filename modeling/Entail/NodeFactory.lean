import Entail.Ordered.Set
import Entail.Value
/-!
# Node factories

Making nodes while keeping the set of texts used so far, and numbering blank nodes from zero.
-/

namespace Entail

open Number

structure NodeFactory where
  texts : OrderedSet String
  nextBlank : Nat

namespace NodeFactory

def empty : NodeFactory := ⟨∅, 0⟩

/-- The number of different texts used so far. -/
def size (f : NodeFactory) : Nat :=
  f.texts.size

def intern (f : NodeFactory) (s : String) : NodeFactory :=
  { f with texts := f.texts.insert s }

def iri (f : NodeFactory) (name : String) : Node × NodeFactory :=
  (.iri name, f.intern name)

def blank (f : NodeFactory) : Node × NodeFactory :=
  (.blank f.nextBlank, { f with nextBlank := f.nextBlank + 1 })

def typed (f : NodeFactory) (lexical datatype : String) : Node × NodeFactory :=
  (.literal (.typed lexical datatype), (f.intern lexical).intern datatype)

/-- The language is kept as a text; the datatype of such literals is not. -/
def tagged (f : NodeFactory) (lexical language : String) : Node × NodeFactory :=
  (.literal (.tagged lexical language), (f.intern lexical).intern language)

def string (f : NodeFactory) (s : String) : Node × NodeFactory :=
  f.typed s Vocabulary.xsdString

def integer (f : NodeFactory) (n : Int64) : Node × NodeFactory :=
  f.typed (int64Text n) Vocabulary.xsdInteger

def decimal (f : NodeFactory) (x : Float) : Node × NodeFactory :=
  f.typed (decimalText x) Vocabulary.xsdDecimal

def boolean (f : NodeFactory) (b : Bool) : Node × NodeFactory :=
  f.typed (Value.boolText b) Vocabulary.xsdBoolean

end NodeFactory

end Entail
