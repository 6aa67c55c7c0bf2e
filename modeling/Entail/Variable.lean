import Entail.Ordered.Key
/-!
# Variables

The named places of a pattern or an expression.
-/

namespace Entail

open Std

structure Variable where
  name : String
deriving DecidableEq

namespace Variable

/-- One question mark in front of the name is not part of it. -/
def ofText (s : String) : Variable :=
  match s.toList with
  | '?' :: rest => ⟨String.ofList rest⟩
  | _ => ⟨s⟩

def text (v : Variable) : String :=
  "?" ++ v.name

private theorem eq_of_name (a b : Variable) (h : a.name = b.name) : a = b := by
  cases a; cases b; simp_all

instance : Ord Variable := ordByKey name

instance : TransOrd Variable := transOrd_ordByKey name

instance : LawfulEqOrd Variable := lawfulEqOrd_ordByKey eq_of_name

end Variable

end Entail
