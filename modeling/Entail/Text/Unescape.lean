import Entail.Text.Quoted
/-!
# Reading escaped text

What escaped text stands for, and where it ends if a quote closes it: at the first quote that no
backslash escapes.
-/

namespace Entail.Text

/-- What `c` stands for after a backslash. -/
def namedEscape? (c : Char) : Option Char :=
  if c = 't' then some '\t'
  else if c = 'r' then some '\r'
  else if c = 'n' then some '\n'
  else if c = '\x27' ∨ c = '\x22' ∨ c = '\\' then some c
  else none

/-- The value of a lower-case hexadecimal digit. -/
def hexValue? (c : Char) : Option Nat :=
  if 0x30 ≤ c.toNat ∧ c.toNat ≤ 0x39 then some (c.toNat - 0x30)
  else if 0x61 ≤ c.toNat ∧ c.toNat ≤ 0x66 then some (c.toNat - 0x57)
  else none

def charOfNumber? (n : Nat) : Option Char :=
  if n.isValidChar then some (Char.ofNat n) else none

/-- Read what is left of an escaped text. Between the braces of a numbered escape the value of the
digits before is known. -/
def unescapeFrom? : Option Nat → List Char → Option (List Char)
  | none, [] => some []
  | some _, [] => none
  | none, '\\' :: 'u' :: '\x7b' :: rest => unescapeFrom? (some 0) rest
  | none, '\\' :: c :: rest =>
    (namedEscape? c).bind fun d => (unescapeFrom? none rest).map (d :: ·)
  | none, c :: rest => if c = '\\' then none else (unescapeFrom? none rest).map (c :: ·)
  | some n, c :: rest =>
    if c = '\x7d' then (charOfNumber? n).bind fun d => (unescapeFrom? none rest).map (d :: ·)
    else (hexValue? c).bind fun d => unescapeFrom? (some (16 * n + d)) rest

/-- The text that an escaped text stands for, if every escape in it stands for a character. -/
def unescape? (s : String) : Option String :=
  (unescapeFrom? none s.toList).map String.ofList

/-- Whether a character after `cs` is escaped: a backslash escapes what comes after it, unless it is
escaped itself. -/
def isEscaping (cs : List Char) : Bool :=
  cs.foldl (fun escaped c => c = '\\' && !escaped) false

/-- In `cs` a quote that is not escaped comes after `before`, and `after` after the quote. -/
structure IsQuote (cs before after : List Char) : Prop where
  split : cs = before ++ '\x22' :: after
  unescaped : isEscaping before = false

/-- The first quote that is not escaped. -/
structure IsFirstQuote (cs before after : List Char) : Prop extends IsQuote cs before after where
  first : ∀ b a, IsQuote cs b a → before.length ≤ b.length

end Entail.Text
