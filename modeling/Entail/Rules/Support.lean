import Entail.Fault
import Entail.Ordered.Map
import Entail.Quad
/-!
# Support

How often each quad is concluded, in total and by each rule, and the quads whose support changed
since the changes were last taken.
-/

namespace Entail

structure Support where
  byRule : OrderedMap (String × Quad) Nat
  totals : OrderedMap Quad Nat
  /-- Quads that came to be supported, in order. -/
  raised : List Quad
  /-- Quads that lost a support, in order. -/
  lowered : List Quad
deriving DecidableEq

namespace Support

def empty : Support := ⟨∅, ∅, [], []⟩

def total (s : Support) (q : Quad) : Nat :=
  (s.totals.get? q).getD 0

def fromRule (s : Support) (rule : String) (q : Quad) : Nat :=
  (s.byRule.get? (rule, q)).getD 0

def raise (s : Support) (rule : String) (q : Quad) : Support where
  byRule := s.byRule.insert (rule, q) (s.fromRule rule q + 1)
  totals := s.totals.insert q (s.total q + 1)
  raised := if s.total q = 0 then s.raised ++ [q] else s.raised
  lowered := s.lowered

/-- The counts with one less at `k`; a count that reaches zero is dropped. -/
def decrement {κ : Type} [Ord κ] [Std.TransOrd κ] [Std.LawfulEqOrd κ] (counts : OrderedMap κ Nat)
    (k : κ) : Option (OrderedMap κ Nat) :=
  (counts.get? k).map fun n => if n ≤ 1 then counts.erase k else counts.insert k (n - 1)

def lower (s : Support) (rule : String) (q : Quad) : Except Fault Support :=
  match decrement s.byRule (rule, q), decrement s.totals q with
  | none, _ => .error .ruleSupportUnderflow
  | _, none => .error .totalSupportUnderflow
  | some byRule, some totals => .ok ⟨byRule, totals, s.raised, s.lowered ++ [q]⟩

def raiseAll (s : Support) (rule : String) (qs : List Quad) : Support :=
  qs.foldl (fun s q => s.raise rule q) s

def lowerAll (s : Support) (rule : String) (qs : List Quad) : Except Fault Support :=
  qs.foldlM (fun s q => s.lower rule q) s

/-- Forget the changes of support after they were taken. -/
def settled (s : Support) : Support :=
  { s with raised := [], lowered := [] }

end Support

end Entail
