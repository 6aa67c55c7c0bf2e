import Entail.Bindings
import Entail.Expression
import Entail.Value.Arithmetic
/-!
# Evaluation

The value of an expression under bindings. Operands are evaluated from left to right, the first
error ends the evaluation, and a truth value that decides a conjunction or a disjunction leaves the
right operand alone.
-/

namespace Entail

def UnaryOp.apply (op : UnaryOp) (v : Value) : Except Error Value :=
  match op with
  | .not => v.expectBool.map fun b => .bool !b
  | .negate => v.neg

/-- The result that the left operand decides alone. -/
def BinaryOp.decidedBy (op : BinaryOp) (left : Value) : Except Error (Option Value) :=
  match op with
  | .and => left.expectBool.map fun b => if b then none else some (.bool false)
  | .or => left.expectBool.map fun b => if b then some (.bool true) else none
  | _ => .ok none

/-- The result for two numbers. Only the four operations of arithmetic have one. -/
def BinaryOp.arithmetic (op : BinaryOp) (left right : Value) : Except Error Value :=
  match op with
  | .add => left.add right
  | .sub => left.sub right
  | .mul => left.mul right
  | .div => left.div right
  | op => do
    let _ ← left.promote right
    throw (.internal (op.text ++ " is not arithmetic"))

def BinaryOp.apply (op : BinaryOp) (left right : Value) : Except Error Value :=
  match op with
  | .add | .sub | .mul | .div => op.arithmetic left right
  | .eq => .ok (.bool (left.sameTerm right))
  | .ne => .ok (.bool !(left.sameTerm right))
  | .lt => (left.compare right).map fun o => .bool o.isLT
  | .le => (left.compare right).map fun o => .bool o.isLE
  | .gt => (left.compare right).map fun o => .bool o.isGT
  | .ge => (left.compare right).map fun o => .bool o.isGE
  | .and | .or => right.expectBool.map .bool

namespace Expression

mutual

def evaluate (b : Bindings) : Expression → Except Error Value
  | .variable v =>
    match b.get? v with
    | some n => .ok (.ofNode n)
    | none => .error (.unboundVariable v.name)
  | .constant n => .ok (.ofNode n)
  | .bound v => .ok (.bool (b.contains v))
  | .str e => do
    let value ← e.evaluate b
    return .string (← value.stringForm)
  | .concat parts => return .string (← joinForms b parts)
  | .unary op e => do
    let value ← e.evaluate b
    op.apply value
  | .binary op left right => do
    let l ← left.evaluate b
    match ← op.decidedBy l with
    | some value => return value
    | none =>
      let r ← right.evaluate b
      op.apply l r

/-- The text forms of the parts, one after another. -/
def joinForms (b : Bindings) : List Expression → Except Error String
  | [] => .ok ""
  | e :: rest => do
    let value ← e.evaluate b
    let form ← value.stringForm
    return form ++ (← joinForms b rest)

end

end Expression

end Entail
