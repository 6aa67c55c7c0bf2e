import Entail.Ordered.Set
import Entail.Node
import Entail.Variable
/-!
# Expressions

Terms over variables and constant nodes, built from text, truth and arithmetic operations, with
their written form, the variables they read, and an order.
-/

namespace Entail

open Std

inductive UnaryOp where
  | not
  | negate
deriving DecidableEq

inductive BinaryOp where
  | add
  | sub
  | mul
  | div
  | eq
  | ne
  | lt
  | le
  | gt
  | ge
  | and
  | or
deriving DecidableEq

def UnaryOp.text : UnaryOp → String
  | not => "Not"
  | negate => "Negate"

def BinaryOp.text : BinaryOp → String
  | add => "Add"
  | sub => "Sub"
  | mul => "Mul"
  | div => "Div"
  | eq => "Eq"
  | ne => "Ne"
  | lt => "Lt"
  | le => "Le"
  | gt => "Gt"
  | ge => "Ge"
  | and => "And"
  | or => "Or"

inductive Expression where
  /-- The value of the node bound to a variable. -/
  | variable (v : Variable)
  | constant (n : Node)
  /-- Whether a variable is bound. -/
  | bound (v : Variable)
  /-- The text form of a value. -/
  | str (e : Expression)
  /-- The text forms of values, joined. -/
  | concat (parts : List Expression)
  | unary (op : UnaryOp) (e : Expression)
  | binary (op : BinaryOp) (left right : Expression)

namespace Expression

mutual

def text : Expression → String
  | .variable v => v.text
  | .constant n => n.text
  | .bound v => "bound(" ++ v.text ++ ")"
  | .str e => "str(" ++ e.text ++ ")"
  | .concat parts => "concat([" ++ String.intercalate ", " (texts parts) ++ "])"
  | .unary op e => "(" ++ op.text ++ " " ++ e.text ++ ")"
  | .binary op left right => "(" ++ op.text ++ " " ++ left.text ++ " " ++ right.text ++ ")"

def texts : List Expression → List String
  | [] => []
  | e :: rest => e.text :: texts rest

end

mutual

/-- The variables read, in the order of reading. -/
def reads : Expression → List Variable
  | .variable v => [v]
  | .constant _ => []
  | .bound v => [v]
  | .str e => e.reads
  | .concat parts => readsAll parts
  | .unary _ e => e.reads
  | .binary _ left right => left.reads ++ right.reads

def readsAll : List Expression → List Variable
  | [] => []
  | e :: rest => e.reads ++ readsAll rest

end

def vars (e : Expression) : OrderedSet Variable :=
  .ofList e.reads

/-- A symbol of an expression spelled out from left to right: a kind, a name or a node. -/
abbrev Symbol := Nat ⊕ Variable ⊕ Node

private def kind (n : Nat) : Symbol := .inl n

private def name (v : Variable) : Symbol := .inr (.inl v)

private def leaf (n : Node) : Symbol := .inr (.inr n)

mutual

/-- The expression spelled out: its kind, then its parts. No spelling begins another one. -/
def spell : Expression → List Symbol
  | .variable v => [kind 0, name v]
  | .constant n => [kind 1, leaf n]
  | .bound v => [kind 2, name v]
  | .str e => kind 3 :: e.spell
  | .concat parts => kind 4 :: spellAll parts
  | .unary op e => kind 5 :: kind op.ctorIdx :: e.spell
  | .binary op left right => kind 6 :: kind op.ctorIdx :: (left.spell ++ right.spell)

/-- A list ends with a lower symbol than the one that announces a further part, so that a list comes
before its extensions. -/
def spellAll : List Expression → List Symbol
  | [] => [kind 0]
  | e :: rest => kind 1 :: (e.spell ++ spellAll rest)

end

private theorem unaryOp_eq {a b : UnaryOp} (h : a.ctorIdx = b.ctorIdx) : a = b := by
  cases a <;> cases b <;> simp_all [UnaryOp.ctorIdx]

private theorem binaryOp_eq {a b : BinaryOp} (h : a.ctorIdx = b.ctorIdx) : a = b := by
  cases a <;> cases b <;> simp_all [BinaryOp.ctorIdx]

mutual

private theorem spell_append (a b : Expression) (r s : List Symbol)
    (h : a.spell ++ r = b.spell ++ s) : a = b ∧ r = s := by
  cases a <;> cases b <;>
    simp only [spell, kind, name, leaf, List.cons_append, List.nil_append, List.append_assoc,
      List.cons.injEq, Sum.inl.injEq, Sum.inr.injEq, reduceCtorEq, false_and, and_false,
      true_and, Nat.reduceEqDiff] at h
  · exact ⟨congrArg _ h.1, h.2⟩
  · exact ⟨congrArg _ h.1, h.2⟩
  · exact ⟨congrArg _ h.1, h.2⟩
  · have := spell_append _ _ _ _ h
    exact ⟨congrArg _ this.1, this.2⟩
  · have := spellAll_append _ _ _ _ h
    exact ⟨congrArg _ this.1, this.2⟩
  · have this := spell_append _ _ _ _ h.2
    exact ⟨by rw [unaryOp_eq h.1, this.1], this.2⟩
  · have left := spell_append _ _ _ _ h.2
    have right := spell_append _ _ _ _ left.2
    exact ⟨by rw [binaryOp_eq h.1, left.1, right.1], right.2⟩

private theorem spellAll_append (a b : List Expression) (r s : List Symbol)
    (h : spellAll a ++ r = spellAll b ++ s) : a = b ∧ r = s := by
  cases a <;> cases b <;>
    simp only [spellAll, kind, List.cons_append, List.nil_append, List.append_assoc,
      List.cons.injEq, Sum.inl.injEq, false_and, true_and, Nat.reduceEqDiff] at h
  · exact ⟨rfl, h⟩
  · have head := spell_append _ _ _ _ h
    have tail := spellAll_append _ _ _ _ head.2
    exact ⟨by rw [head.1, tail.1], tail.2⟩

end

private theorem eq_of_spell (a b : Expression) (h : a.spell = b.spell) : a = b :=
  (spell_append a b [] [] (by rw [h])).1

/-- Expressions are compared by their spelling. -/
instance : Ord Expression := ordByKey spell

instance : TransOrd Expression := transOrd_ordByKey spell

instance : LawfulEqOrd Expression := lawfulEqOrd_ordByKey eq_of_spell

instance : DecidableEq Expression := fun a b =>
  decidable_of_iff (a.spell = b.spell) ⟨eq_of_spell a b, congrArg spell⟩

end Expression

end Entail
