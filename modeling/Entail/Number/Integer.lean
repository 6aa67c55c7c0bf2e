/-!
# Bounded integers

Reading, writing and checked arithmetic of 64-bit signed integers. An operation whose exact result
leaves the range has no result.
-/

namespace Entail.Number

/-- The 64-bit integer equal to `i`, if `i` is in range. -/
def int64? (i : Int) : Option Int64 :=
  if Int64.minValue.toInt ≤ i ∧ i ≤ Int64.maxValue.toInt then some (Int64.ofInt i) else none

def checkedAdd (a b : Int64) : Option Int64 := int64? (a.toInt + b.toInt)

def checkedSub (a b : Int64) : Option Int64 := int64? (a.toInt - b.toInt)

def checkedMul (a b : Int64) : Option Int64 := int64? (a.toInt * b.toInt)

def checkedNeg (a : Int64) : Option Int64 := int64? (-a.toInt)

/-- The number written by a non-empty row of ASCII digits. -/
def readNat? (cs : List Char) : Option Nat :=
  if cs ≠ [] ∧ cs.all Char.isDigit then some (Nat.ofDigitChars 10 cs 0) else none

/-- An optional sign followed by digits. -/
def readInt? : List Char → Option Int
  | '+' :: cs => (readNat? cs).map Int.ofNat
  | '-' :: cs => (readNat? cs).map fun n => -Int.ofNat n
  | cs => (readNat? cs).map Int.ofNat

def readInt64? (cs : List Char) : Option Int64 :=
  (readInt? cs).bind int64?

/-- A minus sign if negative, then the digits of the magnitude. -/
def intChars (i : Int) : List Char :=
  if i < 0 then '-' :: Nat.toDigits 10 i.natAbs else Nat.toDigits 10 i.natAbs

def int64Text (i : Int64) : String :=
  String.ofList (intChars i.toInt)

theorem toInt_of_int64? {i : Int} {n : Int64} (h : int64? i = some n) : n.toInt = i := by
  unfold int64? at h
  split at h
  · rename_i hi
    cases h
    exact Int64.toInt_ofInt_of_le hi.1 (Int.lt_of_le_of_lt hi.2 (by decide))
  · cases h

theorem int64?_toInt (n : Int64) : int64? n.toInt = some n := by
  have hi : Int64.minValue.toInt ≤ n.toInt ∧ n.toInt ≤ Int64.maxValue.toInt :=
    ⟨Int64.minValue_le_toInt n, Int.le_of_lt_add_one n.toInt_lt⟩
  rw [int64?, if_pos hi, Int64.ofInt_toInt]

theorem readNat?_toDigits (n : Nat) : readNat? (Nat.toDigits 10 n) = some n := by
  have hdigits : (Nat.toDigits 10 n).all Char.isDigit = true :=
    List.all_eq_true.2 fun c hc => Nat.isDigit_of_mem_toDigits (by decide) (by decide) hc
  rw [readNat?, if_pos ⟨Nat.toDigits_ne_nil, hdigits⟩, Nat.ofDigitChars_ten_toDigits]

theorem readInt?_intChars (i : Int) : readInt? (intChars i) = some i := by
  unfold intChars
  split
  · rename_i hneg
    rw [readInt?, readNat?_toDigits]
    simp only [Option.map_some, Option.some.injEq, Int.ofNat_eq_natCast]
    omega
  · rename_i hnonneg
    have hread := readNat?_toDigits i.natAbs
    have hhead : ∀ c rest, Nat.toDigits 10 i.natAbs = c :: rest → c ≠ '+' ∧ c ≠ '-' := by
      intro c rest hc
      have := Nat.isDigit_of_mem_toDigits (b := 10) (n := i.natAbs) (c := c)
        (by decide) (by decide) (by rw [hc]; exact List.mem_cons_self)
      constructor <;> (rintro rfl; revert this; decide)
    unfold readInt?
    split
    · rename_i hc; exact absurd rfl (hhead _ _ hc).1
    · rename_i hc; exact absurd rfl (hhead _ _ hc).2
    · rw [hread]
      simp only [Option.map_some, Option.some.injEq, Int.ofNat_eq_natCast]
      omega

theorem readInt64?_intChars (n : Int64) : readInt64? (intChars n.toInt) = some n := by
  rw [readInt64?, readInt?_intChars, Option.bind_some, int64?_toInt]

end Entail.Number
