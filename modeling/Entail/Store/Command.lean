import Entail.Store
/-!
# Commands

The operations of a store as steps that change it in place. A command that fails part of the way
through leaves behind whatever it had done by then.
-/

namespace Entail.Store

/-- What is done to a store, in place, until it is finished or fails. -/
abbrev Command (α : Type) : Type :=
  ExceptT Error (StateM Store) α

namespace Command

variable {α : Type}

/-- The answer, and the store that is left. -/
def run (c : Command α) (s : Store) : Except Error α × Store :=
  StateT.run (ExceptT.run c) s

/-- Fail unless the quad is well-formed. -/
def check (q : Quad) : Command Unit :=
  ExceptT.mk (pure q.validate)

def insert (q : Quad) : Command Bool := do
  check q
  modifyGet fun s => s.insertValid q

def remove (q : Quad) : Command Bool :=
  modifyGet fun s => s.remove q

/-- Check each quad in turn. -/
def checkAll : List Quad → Command Unit
  | [] => pure ()
  | q :: rest => do
    check q
    checkAll rest

/-- Take a step for each quad in turn, counting those that make a difference. -/
def count (step : Quad → Command Bool) : List Quad → Command Nat
  | [] => pure 0
  | q :: rest => do
    let changed ← step q
    let others ← count step rest
    return changed.toNat + others

/-- Check every quad to be added before anything is changed; then remove, then insert. -/
def apply (c : Changeset) : Command ApplyReport := do
  checkAll c.added
  let removed ← count remove c.removed
  let added ← count insert c.added
  return ⟨added, removed⟩

end Command

end Entail.Store
