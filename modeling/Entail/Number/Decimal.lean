import Entail.Number.Shortest
import Entail.Number.Integer
/-!
# Decimal text

Reading and writing 64-bit fractions. The written form has the fewest digits that read back, always
a point and never an exponent.
-/

namespace Entail.Number

/-- The digits of `d` around a point, with zeros where it has no digits of its own. -/
def pointChars (d : DecimalFraction) : List Char :=
  let digits := Nat.toDigits 10 d.digits
  let places := (-d.exponent).toNat
  let padded :=
    List.replicate (places + 1 - digits.length) '0' ++ digits ++ List.replicate d.exponent.toNat '0'
  let whole := padded.take (padded.length - places)
  let fraction := (padded.drop (padded.length - places)).reverse.dropWhile (· == '0')
  whole ++ ['.'] ++ if fraction = [] then ['0'] else fraction.reverse

/-- The text of a decimal: `NaN`, `inf`, or digits around a point; zero keeps its sign. -/
def decimalText (x : Float) : String :=
  if x.isNaN then "NaN"
  else
    let sign := if x.toBits >>> 63 = 1 then ['-'] else []
    let magnitude := BinaryFraction.ofBits x.toBits
    let chars :=
      if x.isInf then ['i', 'n', 'f']
      else if magnitude.significand = 0 then ['0', '.', '0']
      else pointChars magnitude.shortest
    String.ofList (sign ++ chars)

/-- The decimal nearest to an integer. -/
def nearestDecimal (n : Int64) : Float :=
  if n < 0 then -(-n).toUInt64.toFloat else n.toUInt64.toFloat

/-- The 64-bit fraction nearest to `digits * 10 ^ exponent`. Beyond the range of the format the
answer is known without computing the power. -/
def nearestFloat (digits : Nat) (exponent : Int) : Float :=
  let places : Int := (Nat.toDigits 10 digits).length + exponent
  if digits = 0 ∨ places < -400 then 0.0
  else if 400 < places then 1.0 / 0.0
  else if exponent < 0 then Float.ofScientific digits true (-exponent).toNat
  else Float.ofScientific digits false exponent.toNat

/-- An optional exponent after the digits: nothing, or `e` and a signed integer. -/
def readExponent? : List Char → Option Int
  | [] => some 0
  | c :: cs => if c = 'e' ∨ c = 'E' then readInt? cs else none

/-- Digits with an optional point and at least one digit, then an optional exponent. -/
def readMagnitude? (cs : List Char) : Option Float :=
  let whole := cs.takeWhile Char.isDigit
  let rest := cs.dropWhile Char.isDigit
  let (fraction, tail) :=
    match rest with
    | '.' :: after => (after.takeWhile Char.isDigit, after.dropWhile Char.isDigit)
    | _ => ([], rest)
  if whole = [] ∧ fraction = [] then none
  else (readExponent? tail).map fun e =>
    nearestFloat (Nat.ofDigitChars 10 (whole ++ fraction) 0) (e - fraction.length)

/-- The names of infinity and of no number, in any case. -/
def readSpecial? (cs : List Char) : Option Float :=
  match String.ofList (cs.map Char.toLower) with
  | "inf" | "infinity" => some (1.0 / 0.0)
  | "nan" => some (0.0 / 0.0)
  | _ => none

def readUnsigned? (cs : List Char) : Option Float :=
  (readSpecial? cs).orElse fun _ => readMagnitude? cs

/-- An optional sign, then a magnitude or a special name. -/
def readDecimal? : List Char → Option Float
  | '+' :: cs => readUnsigned? cs
  | '-' :: cs => (readUnsigned? cs).map fun x => -x
  | cs => readUnsigned? cs

end Entail.Number
