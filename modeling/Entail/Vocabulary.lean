/-!
# Vocabulary and configuration

The names with a meaning of their own: the type property, the datatypes of literals, and the graphs
used when none is given; and the settings of an engine.
-/

namespace Entail.Vocabulary

def rdfType : String := "http://www.w3.org/1999/02/22-rdf-syntax-ns#type"

def langString : String := "http://www.w3.org/1999/02/22-rdf-syntax-ns#langString"

def xsdString : String := "http://www.w3.org/2001/XMLSchema#string"

def xsdBoolean : String := "http://www.w3.org/2001/XMLSchema#boolean"

def xsdInteger : String := "http://www.w3.org/2001/XMLSchema#integer"

def xsdInt : String := "http://www.w3.org/2001/XMLSchema#int"

def xsdLong : String := "http://www.w3.org/2001/XMLSchema#long"

def xsdDecimal : String := "http://www.w3.org/2001/XMLSchema#decimal"

def xsdDouble : String := "http://www.w3.org/2001/XMLSchema#double"

def xsdFloat : String := "http://www.w3.org/2001/XMLSchema#float"

/-- The graph of a quad that names none. -/
def defaultGraph : String := "urn:quadrille:graph:default"

/-- The graph that conclusions are written to unless another is configured. -/
def inferenceGraph : String := "urn:quadrille:graph:inference"

end Entail.Vocabulary

namespace Entail

structure Config where
  /-- The graph that conclusions are written to. -/
  inferenceGraph : String
  /-- The number of rounds that one request may take. -/
  maxRounds : Nat
  /-- The number of query results kept up to date for later executions. -/
  cacheCapacity : Nat
deriving DecidableEq

def Config.default : Config := ⟨Vocabulary.inferenceGraph, 1000000, 64⟩

end Entail
