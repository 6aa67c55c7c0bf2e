import Entail.Value
/-!
# Arithmetic on values

Two integers give an integer, except for a division with no integer quotient in range; other numbers
are computed as decimals.
-/

namespace Entail.Value

open Number

/-- An integer result, or overflow if there is none in range. -/
def integerOrOverflow : Option Int64 → Except Error Value
  | some n => .ok (integer n)
  | none => .error .overflow

/-- The quotient of two integers, if it is an integer in range. -/
def exactQuotient? (a b : Int64) : Option Int64 :=
  if a.toInt.tmod b.toInt = 0 then int64? (a.toInt.tdiv b.toInt) else none

def divideIntegers (a b : Int64) : Except Error Value :=
  if b = 0 then .error .divisionByZero
  else
    match exactQuotient? a b with
    | some q => .ok (integer q)
    | none => .ok (decimal (nearestDecimal a / nearestDecimal b))

def divideDecimals (a b : Float) : Except Error Value :=
  if b == 0.0 then .error .divisionByZero else .ok (decimal (a / b))

def add (v w : Value) : Except Error Value :=
  match v.promote w with
  | .ok (.integers a b) => integerOrOverflow (checkedAdd a b)
  | .ok (.decimals a b) => .ok (decimal (a + b))
  | .error e => .error e

def sub (v w : Value) : Except Error Value :=
  match v.promote w with
  | .ok (.integers a b) => integerOrOverflow (checkedSub a b)
  | .ok (.decimals a b) => .ok (decimal (a - b))
  | .error e => .error e

def mul (v w : Value) : Except Error Value :=
  match v.promote w with
  | .ok (.integers a b) => integerOrOverflow (checkedMul a b)
  | .ok (.decimals a b) => .ok (decimal (a * b))
  | .error e => .error e

def div (v w : Value) : Except Error Value :=
  match v.promote w with
  | .ok (.integers a b) => divideIntegers a b
  | .ok (.decimals a b) => divideDecimals a b
  | .error e => .error e

def neg : Value → Except Error Value
  | integer n => integerOrOverflow (checkedNeg n)
  | decimal x => .ok (decimal (-x))
  | v => .error (.typeMismatch .numeric v.type)

def expectBool : Value → Except Error Bool
  | bool b => .ok b
  | v => .error (.typeMismatch .bool v.type)

/-- The text a value contributes to a larger text; blank nodes have none. -/
def stringForm : Value → Except Error String
  | string s => .ok s
  | node (.iri name) => .ok name
  | node (.literal l) => .ok l.lexical
  | node (.blank _) => .error (.typeMismatch .string .node)
  | v => .ok v.text

end Entail.Value
