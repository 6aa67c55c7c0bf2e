/-!
# Shortest decimals

The decimal with the fewest digits that rounds to a given binary fraction, chosen in exact integer
arithmetic: of two such decimals the nearer one, and of two equally near the larger.
-/

namespace Entail.Number

/-- The number `significand * 2 ^ exponent`. `closerBelow` holds when the next smaller fraction is
half as far away as the next larger one. -/
structure BinaryFraction where
  significand : Nat
  exponent : Int
  closerBelow : Bool

/-- The magnitude of the finite 64-bit fraction with bits `b`. -/
def BinaryFraction.ofBits (b : UInt64) : BinaryFraction :=
  let biased := ((b >>> 52) &&& 0x7ff).toNat
  let fraction := (b &&& 0xfffffffffffff).toNat
  if biased = 0 then ⟨fraction, -1074, false⟩
  else ⟨0x10000000000000 + fraction, (biased : Int) - 1075, fraction = 0 ∧ 1 < biased⟩

/-- The number `digits * 10 ^ exponent`. -/
structure DecimalFraction where
  digits : Nat
  exponent : Int
deriving DecidableEq

/-- `n` times the `i`-th power of `b`; a negative power counts as one. -/
def scale (n b : Nat) (i : Int) : Nat :=
  n * Nat.pow b i.toNat

/-- Compare `a * 10 ^ i` with `n * 2 ^ j`: both sides are multiplied until no power is negative. -/
def compareScaled (a : Nat) (i : Int) (n : Nat) (j : Int) : Ordering :=
  compare (scale (scale a 10 i) 2 (-j)) (scale (scale n 2 j) 10 (-i))

namespace BinaryFraction

/-- `d` rounds to `x`: it lies between the midpoints to the neighbours of `x`, which themselves
round to `x` when its significand is even. -/
def accepts (x : BinaryFraction) (d : DecimalFraction) : Bool :=
  let low := 4 * x.significand - if x.closerBelow then 1 else 2
  let high := 4 * x.significand + 2
  let atLow := compareScaled d.digits d.exponent low (x.exponent - 2)
  let atHigh := compareScaled d.digits d.exponent high (x.exponent - 2)
  if x.significand % 2 = 0 then atLow != .lt && atHigh != .gt else atLow == .gt && atHigh == .lt

/-- The integer part of `x / 10 ^ e`. -/
def quotient (x : BinaryFraction) (e : Int) : Nat :=
  scale (scale x.significand 2 x.exponent) 10 (-e) / scale (scale 1 2 (-x.exponent)) 10 e

/-- From `e` on, the first exponent whose power of ten exceeds `x`, looked for `steps` times. -/
def exponentAbove (x : BinaryFraction) : Nat → Int → Int
  | 0, e => e
  | steps + 1, e => if x.quotient e = 0 then e else exponentAbove x steps (e + 1)

/-- The least `e` with `x < 10 ^ e`. The binary logarithm gives a start at most two below it. -/
def decimalScale (x : BinaryFraction) : Int :=
  x.exponentAbove 4 (Int.fdiv (((x.significand.log2 : Int) + x.exponent) * 30103) 100000)

/-- The neighbour of `x` among the multiples of `10 ^ e` that rounds to `x`, if one does: the nearer
of the two, and the upper one if they are equally near. -/
def onGrid? (x : BinaryFraction) (e : Int) : Option DecimalFraction :=
  let below : DecimalFraction := ⟨x.quotient e, e⟩
  let above : DecimalFraction := ⟨x.quotient e + 1, e⟩
  match x.accepts below, x.accepts above with
  | false, false => none
  | true, false => some below
  | false, true => some above
  | true, true =>
    if compareScaled (below.digits + above.digits) e (2 * x.significand) x.exponent = .gt then
      some below
    else some above

/-- The exact value of `x` as a decimal. -/
def exact (x : BinaryFraction) : DecimalFraction :=
  if 0 ≤ x.exponent then ⟨scale x.significand 2 x.exponent, 0⟩
  else ⟨scale x.significand 5 (-x.exponent), x.exponent⟩

/-- The shortest decimal that rounds to `x`; seventeen digits are enough. -/
def shortest (x : BinaryFraction) : DecimalFraction :=
  ((List.range 17).findSome? fun n => x.onGrid? (x.decimalScale - (n + 1 : Nat))).getD x.exact

end BinaryFraction

end Entail.Number
