import Entail.Ordered.Key
import Entail.Text.Quoted
import Entail.Vocabulary
/-!
# Nodes

The terms of a quad: names, blank nodes and literals, with their written form and their order.
-/

namespace Entail

open Std

/-- A text with a datatype, or a text in a language. -/
inductive Literal where
  | typed (lexical datatype : String)
  | tagged (lexical language : String)
deriving DecidableEq

namespace Literal

def lexical : Literal → String
  | typed lexical _ => lexical
  | tagged lexical _ => lexical

/-- Text in a language has one datatype of its own. -/
def datatype : Literal → String
  | typed _ datatype => datatype
  | tagged _ _ => Vocabulary.langString

def language? : Literal → Option String
  | typed _ _ => none
  | tagged _ language => some language

/-- What follows the closing quote: the language, or the datatype unless it is that of strings. -/
def suffix : Literal → String
  | typed _ datatype =>
    if datatype = Vocabulary.xsdString then "" else "^^<" ++ datatype ++ ">"
  | tagged _ language => "@" ++ language

/-- The escaped text between quotes, then the suffix. -/
def text (l : Literal) : String :=
  "\x22" ++ Text.escape l.lexical ++ "\x22" ++ l.suffix

private def key (l : Literal) : String × String × Option String :=
  (l.lexical, l.datatype, l.language?)

private theorem eq_of_key (a b : Literal) (h : a.key = b.key) : a = b := by
  cases a <;> cases b <;> simp_all [key, lexical, datatype, language?]

instance : Ord Literal := ordByKey key

instance : TransOrd Literal := transOrd_ordByKey key

instance : LawfulEqOrd Literal := lawfulEqOrd_ordByKey eq_of_key

end Literal

/-- A name, a blank node, or a literal. -/
inductive Node where
  | iri (name : String)
  | blank (index : Nat)
  | literal (value : Literal)
deriving DecidableEq

namespace Node

def isIri : Node → Bool
  | iri _ => true
  | _ => false

def isBlank : Node → Bool
  | blank _ => true
  | _ => false

def isLiteral : Node → Bool
  | literal _ => true
  | _ => false

def text : Node → String
  | iri name => "<" ++ name ++ ">"
  | blank index => "_:b" ++ toString index
  | literal value => value.text

private def key : Node → String ⊕ Nat ⊕ Literal
  | iri name => .inl name
  | blank index => .inr (.inl index)
  | literal value => .inr (.inr value)

private theorem eq_of_key (a b : Node) (h : a.key = b.key) : a = b := by
  cases a <;> cases b <;> simp_all [key]

/-- Names come before blank nodes and blank nodes before literals. -/
instance : Ord Node := ordByKey key

instance : TransOrd Node := transOrd_ordByKey key

instance : LawfulEqOrd Node := lawfulEqOrd_ordByKey eq_of_key

end Node

end Entail
