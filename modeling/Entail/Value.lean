import Entail.Error
import Entail.Number.Decimal
import Entail.Text.Character
import Entail.Text.Quoted
/-!
# Values

What a node stands for in an expression: a truth value, a number, a text, or only itself. Values are
decoded from nodes and encoded back into one written form each.
-/

namespace Entail

open Number

inductive Value where
  | bool (b : Bool)
  | integer (n : Int64)
  | decimal (x : Float)
  | string (s : String)
  | node (n : Node)

/-- Two numbers brought to a common type. -/
inductive Numeric where
  | integers (a b : Int64)
  | decimals (a b : Float)

/-- How the lexical form of a literal is read. -/
inductive Reading where
  | integer
  | decimal
  | bool
  | string

/-- The reading of a datatype, for the datatypes that have one. -/
def Reading.ofDatatype? (d : String) : Option Reading :=
  if d = Vocabulary.xsdInteger ∨ d = Vocabulary.xsdInt ∨ d = Vocabulary.xsdLong then some .integer
  else if d = Vocabulary.xsdDecimal ∨ d = Vocabulary.xsdDouble ∨ d = Vocabulary.xsdFloat then
    some .decimal
  else if d = Vocabulary.xsdBoolean then some .bool
  else if d = Vocabulary.xsdString ∨ d = Vocabulary.langString then some .string
  else none

namespace Value

def type : Value → ValueType
  | bool _ => .bool
  | integer _ => .integer
  | decimal _ => .decimal
  | string _ => .string
  | node _ => .node

/-- The two written forms of each truth value. -/
def readBool? (s : String) : Option Bool :=
  if s = "true" ∨ s = "1" then some true
  else if s = "false" ∨ s = "0" then some false
  else none

/-- Numbers and truth values may have blanks around them; text is taken as it is. -/
def read? (lexical : String) : Reading → Option Value
  | .integer => (readInt64? (Text.trim lexical).toList).map integer
  | .decimal => (readDecimal? (Text.trim lexical).toList).map decimal
  | .bool => (readBool? (Text.trim lexical)).map bool
  | .string => some (string lexical)

/-- A literal that cannot be read as its datatype says stands for itself. -/
def ofNode : Node → Value
  | .literal l =>
    (((Reading.ofDatatype? l.datatype).bind (read? l.lexical))).getD (node (.literal l))
  | n => node n

def boolText (b : Bool) : String :=
  if b then "true" else "false"

def toNode : Value → Node
  | bool b => .literal (.typed (boolText b) Vocabulary.xsdBoolean)
  | integer n => .literal (.typed (int64Text n) Vocabulary.xsdInteger)
  | decimal x => .literal (.typed (decimalText x) Vocabulary.xsdDecimal)
  | string s => .literal (.typed s Vocabulary.xsdString)
  | node n => n

/-- The text of a value with strings as they are. -/
def text : Value → String
  | bool b => boolText b
  | integer n => int64Text n
  | decimal x => decimalText x
  | string s => s
  | node n => n.text

/-- The text of a value with strings in quotes. -/
def quotedText : Value → String
  | string s => Text.quote s
  | v => v.text

def bool? : Value → Option Bool
  | bool b => some b
  | _ => none

def integer? : Value → Option Int64
  | integer n => some n
  | _ => none

/-- Integers count as decimals, rounded to the nearest. -/
def decimal? : Value → Option Float
  | integer n => some (nearestDecimal n)
  | decimal x => some x
  | _ => none

def string? : Value → Option String
  | string s => some s
  | _ => none

/-- Two integers stay integers; any other two numbers become decimals. -/
def promote (v w : Value) : Except Error Numeric :=
  match v, w with
  | integer a, integer b => .ok (.integers a b)
  | v, w =>
    match v.decimal?, w.decimal? with
    | some a, some b => .ok (.decimals a b)
    | none, _ => .error (.typeMismatch .numeric v.type)
    | _, none => .error (.typeMismatch .numeric w.type)

/-- The order of two decimals, which a missing number does not have. -/
def compareDecimals (a b : Float) : Except Error Ordering :=
  if a < b then .ok .lt
  else if a == b then .ok .eq
  else if b < a then .ok .gt
  else .error (.typeMismatch .numeric .decimal)

/-- The order of two texts, two truth values, two nodes, or two numbers. -/
def compare (v w : Value) : Except Error Ordering :=
  match v, w with
  | string a, string b => .ok (Ord.compare a b)
  | bool a, bool b => .ok (Ord.compare a b)
  | node a, node b => .ok (Ord.compare a b)
  | v, w =>
    match v.promote w with
    | .ok (.integers a b) => .ok (Ord.compare a b)
    | .ok (.decimals a b) => compareDecimals a b
    | .error e => .error e

/-- Numbers are the same if they are equal; other values if they are written the same. -/
def sameTerm (v w : Value) : Bool :=
  match v.promote w with
  | .ok (.integers a b) => a == b
  | .ok (.decimals a b) => a == b
  | .error _ => v.toNode == w.toNode

/-- Equality by kind, with decimals compared as numbers. -/
instance : BEq Value where
  beq
    | bool a, bool b => a == b
    | integer a, integer b => a == b
    | decimal a, decimal b => a == b
    | string a, string b => a == b
    | node a, node b => a == b
    | _, _ => false

end Value

end Entail
