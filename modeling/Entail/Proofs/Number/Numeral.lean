import Entail.Number.Integer
import Mathlib.Data.List.Basic
import Mathlib.Data.List.Induction
/-!
# Numerals

Which texts stand for which integer, apart from how they are read and written: a row of digits, a
sign in front of it, and for each integer the one form without a needless sign or zero.
-/

namespace Entail.Number

variable {cs : List Char} {c : Char} {n d : Nat} {i : Int}

/-- A row of decimal digits and the number that it stands for. -/
inductive Numeral : List Char → Nat → Prop
  | digit {d : Nat} (hd : d < 10) : Numeral [d.digitChar] d
  | concat {cs : List Char} {n d : Nat} (h : Numeral cs n) (hd : d < 10) :
      Numeral (cs ++ [d.digitChar]) (10 * n + d)

/-- A numeral with or without a sign. -/
inductive IntegerForm : List Char → Int → Prop
  | unsigned {cs : List Char} {n : Nat} (h : Numeral cs n) : IntegerForm cs n
  | plus {cs : List Char} {n : Nat} (h : Numeral cs n) : IntegerForm ('+' :: cs) n
  | minus {cs : List Char} {n : Nat} (h : Numeral cs n) : IntegerForm ('-' :: cs) (-n)

/-- No zeros in front, no plus sign, and a minus sign for negative numbers only. -/
inductive CanonicalForm : List Char → Int → Prop
  | zero : CanonicalForm ['0'] 0
  | positive {cs : List Char} {n : Nat} (h : Numeral cs n) (hhead : cs.head? ≠ some '0') :
      CanonicalForm cs n
  | negative {cs : List Char} {n : Nat} (h : Numeral cs n) (hhead : cs.head? ≠ some '0') :
      CanonicalForm ('-' :: cs) (-n)

/-! ## Reading -/

theorem isDigit_iff : c.isDigit = true ↔ ∃ d < 10, d.digitChar = c := by
  constructor
  · intro h
    have hbounds : 48 ≤ c.toNat ∧ c.toNat ≤ 57 := by
      simpa [Char.isDigit, UInt32.le_iff_toNat_le] using h
    have hd : c.toNat - 48 < 10 := by omega
    refine ⟨c.toNat - 48, hd, ?_⟩
    rw [← Char.toNat_inj, Nat.toNat_digitChar_of_lt_ten hd]
    omega
  · rintro ⟨d, hd, rfl⟩
    rw [Nat.isDigit_digitChar, decide_eq_true hd]

theorem ofDigitChars_concat (cs : List Char) (hd : d < 10) :
    Nat.ofDigitChars 10 (cs ++ [d.digitChar]) 0 = 10 * Nat.ofDigitChars 10 cs 0 + d := by
  have hdigit : d.digitChar.toNat - '0'.toNat = d := by
    rw [Nat.toNat_digitChar_of_lt_ten hd]
    exact Nat.add_sub_cancel_left 48 d
  rw [Nat.ofDigitChars_append, Nat.ofDigitChars_cons, hdigit]
  rfl

namespace Numeral

theorem ne_nil (h : Numeral cs n) : cs ≠ [] := by
  cases h <;> simp

theorem isDigit (h : Numeral cs n) (hc : c ∈ cs) : c.isDigit = true := by
  induction h with
  | digit hd =>
      rw [List.mem_singleton] at hc
      exact isDigit_iff.2 ⟨_, hd, hc.symm⟩
  | concat _ hd ih =>
      rw [List.mem_append, List.mem_singleton] at hc
      rcases hc with hc | hc
      · exact ih hc
      · exact isDigit_iff.2 ⟨_, hd, hc.symm⟩

theorem ofDigitChars_eq (h : Numeral cs n) : Nat.ofDigitChars 10 cs 0 = n := by
  induction h with
  | @digit n hd =>
      calc Nat.ofDigitChars 10 [n.digitChar] 0
          = 10 * 0 + n := ofDigitChars_concat [] hd
        _ = n := by omega
  | concat _ hd ih => rw [ofDigitChars_concat _ hd, ih]

end Numeral

theorem numeral_ofDigitChars (hne : cs ≠ []) (hdigits : ∀ c ∈ cs, c.isDigit = true) :
    Numeral cs (Nat.ofDigitChars 10 cs 0) := by
  induction cs using List.reverseRecOn with
  | nil => exact absurd rfl hne
  | append_singleton cs c ih =>
      obtain ⟨d, hd, rfl⟩ := isDigit_iff.1 (hdigits c (by simp))
      rw [ofDigitChars_concat cs hd]
      by_cases hnil : cs = []
      · subst hnil
        exact (Nat.zero_add d).symm ▸ .digit hd
      · exact .concat (ih hnil fun x hx => hdigits x (List.mem_append_left _ hx)) hd

theorem readNat?_eq_some_iff : readNat? cs = some n ↔ Numeral cs n := by
  rw [readNat?, Option.ite_none_right_eq_some, Option.some_inj, List.all_eq_true]
  constructor
  · rintro ⟨⟨hne, hdigits⟩, rfl⟩
    exact numeral_ofDigitChars hne hdigits
  · intro h
    exact ⟨⟨h.ne_nil, fun c hc => h.isDigit hc⟩, h.ofDigitChars_eq⟩

theorem readInt?_of_numeral (h : Numeral cs n) : readInt? cs = some (n : Int) := by
  have hsign : ∀ c ∈ cs, c ≠ '+' ∧ c ≠ '-' := by
    intro c hc
    have hdigit := h.isDigit hc
    constructor <;> (rintro rfl; revert hdigit; decide)
  unfold readInt?
  split
  · exact absurd rfl (hsign _ List.mem_cons_self).1
  · exact absurd rfl (hsign _ List.mem_cons_self).2
  · rw [readNat?_eq_some_iff.2 h]
    rfl

theorem readInt?_eq_some_iff : readInt? cs = some i ↔ IntegerForm cs i := by
  constructor
  · intro h
    unfold readInt? at h
    split at h
    · obtain ⟨n, hn, rfl⟩ := Option.map_eq_some_iff.1 h
      exact .plus (readNat?_eq_some_iff.1 hn)
    · obtain ⟨n, hn, rfl⟩ := Option.map_eq_some_iff.1 h
      exact .minus (readNat?_eq_some_iff.1 hn)
    · obtain ⟨n, hn, rfl⟩ := Option.map_eq_some_iff.1 h
      exact .unsigned (readNat?_eq_some_iff.1 hn)
  · intro h
    cases h with
    | unsigned h => exact readInt?_of_numeral h
    | plus h => rw [readInt?, readNat?_eq_some_iff.2 h, Option.map_some, Int.ofNat_eq_natCast]
    | minus h => rw [readInt?, readNat?_eq_some_iff.2 h, Option.map_some, Int.ofNat_eq_natCast]

theorem readInt64?_eq_some_iff {x : Int64} : readInt64? cs = some x ↔ IntegerForm cs x.toInt := by
  rw [readInt64?, Option.bind_eq_some_iff]
  constructor
  · rintro ⟨i, hi, hx⟩
    rw [toInt_of_int64? hx]
    exact readInt?_eq_some_iff.1 hi
  · intro h
    exact ⟨x.toInt, readInt?_eq_some_iff.2 h, int64?_toInt x⟩

/-! ## Writing -/

theorem numeral_toDigits (n : Nat) : Numeral (Nat.toDigits 10 n) n :=
  readNat?_eq_some_iff.1 (readNat?_toDigits n)

theorem head?_toDigits (hn : 0 < n) : (Nat.toDigits 10 n).head? ≠ some '0' := by
  induction n using Nat.strongRecOn with
  | _ n ih =>
      by_cases hlt : n < 10
      · rw [Nat.toDigits_of_lt_base hlt, List.head?_cons, ne_eq, Option.some_inj]
        intro hzero
        have hcode := congrArg Char.toNat hzero
        rw [Nat.toNat_digitChar_of_lt_ten hlt] at hcode
        exact Nat.ne_of_gt hn (Nat.add_left_cancel (n := 48) hcode)
      · rw [Nat.toDigits_of_base_le (by decide) (by omega),
          List.head?_append_of_ne_nil _ Nat.toDigits_ne_nil]
        exact ih (n / 10) (by omega) (by omega)

theorem Numeral.eq_toDigits (h : Numeral cs n) (hhead : cs.head? ≠ some '0') :
    0 < n ∧ cs = Nat.toDigits 10 n := by
  induction h with
  | @digit d hd =>
      refine ⟨Nat.pos_of_ne_zero ?_, (Nat.toDigits_of_lt_base hd).symm⟩
      rintro rfl
      exact hhead rfl
  | @concat cs n d h hd ih =>
      rw [List.head?_append_of_ne_nil _ h.ne_nil] at hhead
      obtain ⟨hn, hcs⟩ := ih hhead
      refine ⟨by omega, ?_⟩
      rw [← Nat.toDigits_append_toDigits (by decide) hn hd, Nat.toDigits_of_lt_base hd, ← hcs]

/-- The form that is written is the one without a needless sign or zero. -/
theorem canonicalForm_iff : CanonicalForm cs i ↔ cs = intChars i := by
  constructor
  · intro h
    cases h with
    | zero => rfl
    | positive h hhead =>
        obtain ⟨_, hcs⟩ := h.eq_toDigits hhead
        rw [intChars, if_neg (by omega), Int.natAbs_natCast, ← hcs]
    | negative h hhead =>
        obtain ⟨hn, hcs⟩ := h.eq_toDigits hhead
        rw [intChars, if_pos (by omega), Int.natAbs_neg, Int.natAbs_natCast, ← hcs]
  · rintro rfl
    rcases Int.lt_trichotomy i 0 with hneg | rfl | hpos
    · have hi : -(i.natAbs : Int) = i := by omega
      have hform : CanonicalForm ('-' :: Nat.toDigits 10 i.natAbs) (-(i.natAbs : Int)) :=
        .negative (numeral_toDigits _) (head?_toDigits (by omega))
      rw [hi] at hform
      rw [intChars, if_pos hneg]
      exact hform
    · exact .zero
    · have hi : (i.natAbs : Int) = i := by omega
      have hform : CanonicalForm (Nat.toDigits 10 i.natAbs) (i.natAbs : Int) :=
        .positive (numeral_toDigits _) (head?_toDigits (by omega))
      rw [hi] at hform
      rw [intChars, if_neg (by omega)]
      exact hform

theorem CanonicalForm.integerForm (h : CanonicalForm cs i) : IntegerForm cs i := by
  cases h with
  | zero => exact .unsigned (.digit (d := 0) (by decide))
  | positive h => exact .unsigned h
  | negative h => exact .minus h

end Entail.Number
