import Entail.Expression.Evaluate
/-!
# Operations

The operations that an expression of arithmetic carries out, one after the other, and the results that
they would have if integers had no bounds.
-/

namespace Entail

open Number

def BinaryOp.IsArithmetic : BinaryOp → Prop
  | .add | .sub | .mul | .div => True
  | _ => False

/-- The exact result; a division by zero has none. -/
def BinaryOp.rational? (op : BinaryOp) (q r : Rat) : Option Rat :=
  match op with
  | .add => some (q + r)
  | .sub => some (q - r)
  | .mul => some (q * r)
  | .div => if r = 0 then none else some (q / r)
  | _ => none

/-- Both zeros of decimals are zero. -/
def Value.IsZero : Value → Prop
  | integer n => n = 0
  | decimal x => (x == 0.0) = true
  | _ => False

/-- An operation of arithmetic with the values it is carried out on. -/
inductive Operation where
  | negation (v : Value)
  | binary (op : BinaryOp) (v w : Value)

namespace Operation

def run : Operation → Except Error Value
  | negation v => v.neg
  | binary op v w => op.apply v w

/-- The exact result for integers. -/
def rational? : Operation → Option Rat
  | negation (.integer a) => some (-a.toInt)
  | binary op (.integer a) (.integer c) => op.rational? a.toInt c.toInt
  | _ => none

/-- The exact result is an integer that does not fit into 64 bits. -/
def Overflows (o : Operation) : Prop :=
  ∃ i : Int, o.rational? = some (i : Rat) ∧ int64? i = none

def DividesByZero : Operation → Prop
  | binary .div _ w => w.IsZero
  | _ => False

/-- A division of two integers that has no integral quotient. -/
def IsInexact : Operation → Prop
  | binary .div (.integer a) (.integer c) => c ≠ 0 ∧ ¬ c.toInt ∣ a.toInt
  | _ => False

/-- The one division of integers whose quotient is integral and does not fit. -/
def leastByMinusOne : Operation :=
  binary .div (.integer Int64.minValue) (.integer (-1))

end Operation

namespace Expression

/-- An expression of arithmetic whose leaves stand for integers. -/
inductive IsArithmetic (b : Bindings) : Expression → Prop
  | var {v : Variable} {n : Node} {k : Int64} (hv : b.get? v = some n)
    (hn : Value.ofNode n = .integer k) : IsArithmetic b (.variable v)
  | const {n : Node} {k : Int64} (hn : Value.ofNode n = .integer k) : IsArithmetic b (.constant n)
  | negate {e : Expression} (he : IsArithmetic b e) : IsArithmetic b (.unary .negate e)
  | binary {op : BinaryOp} {left right : Expression} (hop : op.IsArithmetic)
    (hleft : IsArithmetic b left) (hright : IsArithmetic b right) :
    IsArithmetic b (.binary op left right)

/-- The exact value, if there is no division by zero. -/
def rational? (b : Bindings) : Expression → Option Rat
  | .variable v => (b.get? v).bind fun n => (Value.ofNode n).integer?.map fun k => (k.toInt : Rat)
  | .constant n => (Value.ofNode n).integer?.map fun k => (k.toInt : Rat)
  | .unary .negate e => (e.rational? b).map fun q => -q
  | .binary op left right =>
    (left.rational? b).bind fun q => (right.rational? b).bind fun r => op.rational? q r
  | _ => none

/-- What an expression of arithmetic carries out: the operations of the left operand, those of the
right one, then its own. The first operation that fails is the last one. -/
def operations (b : Bindings) : Expression → List Operation
  | .unary .negate e =>
    match e.evaluate b with
    | .ok v => e.operations b ++ [.negation v]
    | .error _ => e.operations b
  | .binary op left right =>
    match left.evaluate b, right.evaluate b with
    | .ok v, .ok w => left.operations b ++ right.operations b ++ [.binary op v w]
    | .ok _, .error _ => left.operations b ++ right.operations b
    | .error _, _ => left.operations b
  | _ => []

/-- The result is exact, or a report of what prevents an exact one: an integer is the exact value,
for a decimal there is an inexact division, and errors come from a zero divisor or from the first
operation that cannot be carried out, if its result does not fit. -/
structure IsExactOrReported (b : Bindings) (e : Expression) : Prop where
  integer : ∀ n, e.evaluate b = .ok (.integer n) → e.rational? b = some (n.toInt : Rat)
  divisionByZero : e.evaluate b = .error .divisionByZero → ∃ o ∈ e.operations b, o.DividesByZero
  decimal : ∀ x, e.evaluate b = .ok (.decimal x) → ∃ o ∈ e.operations b, o.IsInexact
  overflow : e.evaluate b = .error .overflow ↔
    ∃ before o after, e.operations b = before ++ o :: after ∧ o.Overflows ∧
      ∀ p ∈ before, ¬ p.Overflows ∧ ¬ p.DividesByZero

end Expression

end Entail
