import Entail.Number.Decimal
import Mathlib
/-!
# Integers as decimals

An integer may be rounded when it becomes a decimal, but none except zero becomes zero: the result has
a mantissa of 53 bits and an exponent in the range of the format.
-/

namespace Entail.Number

open Float.Model Float.Model.UnpackedFloat

/-! ## Rounding -/

/-- A number whose mantissa uses all 53 bits and whose exponent is neither the least nor too large. -/
def IsNormal (f : UnpackedFloat) : Prop :=
  ∃ s m e, ∃ hm : 0 < m, f = .finite s m e hm ∧ 2 ^ 52 ≤ m ∧ m < 2 ^ 53 ∧ -1074 ≤ e ∧ e ≤ 970

private theorem mantissa_shiftRight (em : ExtendedMantissa) (k : Nat) :
    (em >>> k).mantissa = em.mantissa / 2 ^ k := by
  change (Nat.repeat ExtendedMantissa.shiftRightOne k em).mantissa = _
  induction k with
  | zero => exact (Nat.div_one _).symm
  | succ k ih =>
      rw [Nat.repeat, ExtendedMantissa.shiftRightOne, ih, Nat.div_div_eq_div_mul, Nat.pow_succ]

private theorem roundedMantissa_bounds (em : ExtendedMantissa) :
    em.mantissa ≤ em.roundedMantissa ∧ em.roundedMantissa ≤ em.mantissa + 1 := by
  obtain ⟨m, roundBit, stickyBit⟩ := em
  cases roundBit <;> cases stickyBit <;>
    simp only [ExtendedMantissa.roundedMantissa, ExtendedMantissa.accuracy,
      Accuracy.roundToNearestEven] <;> omega

private theorem div_two_pow_bounds {m k : Nat} (h : m.log2 = 52 + k) :
    2 ^ 52 ≤ m / 2 ^ k ∧ m / 2 ^ k < 2 ^ 53 := by
  have hm : m ≠ 0 := by
    rintro rfl
    rw [Nat.log2_zero] at h
    omega
  have hlow : 2 ^ (52 + k) ≤ m := h ▸ Nat.log2_self_le hm
  have hhigh : m < 2 ^ (53 + k) := by
    have hlt : m < 2 ^ (m.log2 + 1) := Nat.lt_log2_self
    rwa [h, show 52 + k + 1 = 53 + k by omega] at hlt
  constructor
  · rw [Nat.le_div_iff_mul_le (Nat.two_pow_pos k), ← Nat.pow_add]
    exact hlow
  · rw [Nat.div_lt_iff_lt_mul (Nat.two_pow_pos k), ← Nat.pow_add]
    exact hhigh

private theorem log2_shiftLeft {m : Nat} (hm : m ≠ 0) (k : Nat) :
    (m <<< k).log2 = m.log2 + k := by
  have hpow : 0 < 2 ^ k := Nat.two_pow_pos k
  rw [Nat.shiftLeft_eq, Nat.log2_eq_iff (Nat.mul_ne_zero hm hpow.ne'), Nat.add_right_comm,
    Nat.pow_add, Nat.pow_add]
  exact ⟨Nat.mul_le_mul_right _ (Nat.log2_self_le hm),
    Nat.mul_lt_mul_of_pos_right Nat.lt_log2_self hpow⟩

private theorem shiftToTargetExponent_eq {m k : Nat} {e : Int} (hm : m.log2 = 52 + k)
    (he : -1074 ≤ e) :
    shiftToTargetExponent Format.binary64 m e .exact = (ExtendedMantissa.mk m false false >>> k, e + k) := by
  have htarget : Format.binary64.targetExponent (totalExponent m e) = e + k := by
    simp only [Format.targetExponent, totalExponent, Format.mantissaBits, Format.minExponent, hm]
    norm_num
    omega
  have hshift : (e + k - e).toNat = k := by omega
  rw [shiftToTargetExponent, htarget, shiftToExponent, hshift]
  rfl

private theorem isNormal_roundWithAccuracy {m k : Nat} {e : Int} (s : Sign)
    (hm : m.log2 = 52 + k) (he : -1074 ≤ e) (he' : e + k ≤ 969) :
    IsNormal (roundWithAccuracy Format.binary64 s m e .exact) := by
  obtain ⟨hlow, hhigh⟩ := div_two_pow_bounds hm
  have hrounded : m / 2 ^ k ≤ (ExtendedMantissa.mk m false false >>> k).roundedMantissa ∧
      (ExtendedMantissa.mk m false false >>> k).roundedMantissa ≤ m / 2 ^ k + 1 := by
    have hbounds := roundedMantissa_bounds (ExtendedMantissa.mk m false false >>> k)
    rwa [mantissa_shiftRight] at hbounds
  obtain ⟨j, hj, hlog⟩ : ∃ j, j ≤ 1 ∧
      (ExtendedMantissa.mk m false false >>> k).roundedMantissa.log2 = 52 + j := by
    -- only if rounding carries all the way is there one bit more
    generalize (ExtendedMantissa.mk m false false >>> k).roundedMantissa = r at hrounded
    have hlog : 52 ≤ r.log2 ∧ r.log2 < 54 := by
      have hr : r ≠ 0 := by omega
      exact ⟨(Nat.le_log2 hr).2 (by omega), (Nat.log2_lt hr).2 (by omega)⟩
    exact ⟨r.log2 - 52, by omega, by omega⟩
  obtain ⟨hlow', hhigh'⟩ := div_two_pow_bounds hlog
  rw [roundWithAccuracy, shiftToTargetExponent_eq hm he]
  simp only []
  rw [shiftToTargetExponent_eq hlog (by omega)]
  simp only [mantissa_shiftRight]
  rw [dif_neg (by omega)]
  exact ⟨s, _, _, by omega, rfl, hlow', hhigh', by omega, by omega⟩

private theorem isNormal_round {m : Nat} (s : Sign) (hm : m ≠ 0) (hlt : m < 2 ^ 64) :
    IsNormal (UnpackedFloat.round Format.binary64 s m 0) := by
  have hlog : m.log2 < 64 := (Nat.log2_lt hm).2 hlt
  have htarget : Format.binary64.targetExponent (totalExponent m 0) = m.log2 - 52 := by
    simp only [Format.targetExponent, totalExponent, Format.mantissaBits, Format.minExponent]
    norm_num
    omega
  have hlog' : (m <<< (0 - ((m.log2 : Int) - 52)).toNat).log2 = 52 + (m.log2 - 52) := by
    rw [log2_shiftLeft hm]
    omega
  rw [UnpackedFloat.round, htarget, decreaseExponent]
  exact isNormal_roundWithAccuracy s hlog' (by omega) (by omega)

/-! ## Packing -/

private theorem toNat_append_bounds (v : BitVec 52) :
    2 ^ 52 ≤ (1#1 ++ v).toNat ∧ (1#1 ++ v).toNat < 2 ^ 53 := by
  have hv := v.isLt
  rw [BitVec.toNat_append, ← Nat.shiftLeft_add_eq_or_of_lt hv, Nat.shiftLeft_eq]
  constructor
  · exact Nat.le_add_right _ _
  · change 1 * 2 ^ 52 + v.toNat < 2 ^ 53
    omega

private theorem isNormal_unpack {b : BitVec Format.binary64.numBits}
    (hpos : 0 < (unpackExponent b).toNat) (hlt : (unpackExponent b).toNat < 2046) :
    IsNormal (UnpackedFloat.unpack Format.binary64 b) := by
  have hgreatest : unpackExponent b ≠ -1#11 := by
    intro heq
    rw [heq] at hlt
    exact absurd hlt (by decide)
  have hleast : unpackExponent b ≠ 0#11 := by
    intro heq
    rw [heq] at hpos
    exact absurd hpos (by decide)
  obtain ⟨hlow, hhigh⟩ := toNat_append_bounds (unpackMantissa b)
  have hbias : (Format.binary64.exponentBias : Int) = 1023 := rfl
  rw [UnpackedFloat.unpack, hbias]
  simp only []
  rw [if_neg hgreatest, if_neg hleast]
  exact ⟨_, _, _, _, rfl, hlow, hhigh, by omega, by omega⟩

theorem IsNormal.unpack_pack {f : UnpackedFloat} (h : IsNormal f) :
    IsNormal (UnpackedFloat.unpack Format.binary64 (UnpackedFloat.pack Format.binary64 f)) := by
  obtain ⟨s, m, e, hm, rfl, hlow, hhigh, he, he'⟩ := h
  have hlog : m.log2 = 52 := (Nat.log2_eq_iff hm.ne').2 ⟨hlow, hhigh⟩
  have hbias : (Format.binary64.exponentBias : Int) = 1023 := rfl
  have hbits : 52 + 1 = Format.binary64.mantissaBits := rfl
  have hexponent : (BitVec.ofNat 11 (e + 1023 + (52 : Nat)).toNat).toNat =
      (e + 1023 + (52 : Nat)).toNat := by
    rw [BitVec.toNat_ofNat]
    omega
  rw [UnpackedFloat.pack, hbias]
  simp only [hlog]
  rw [if_neg (by omega), if_pos hbits]
  apply isNormal_unpack
  · rw [unpackExponent_packComponents, hexponent]
    omega
  · rw [unpackExponent_packComponents, hexponent]
    omega

theorem IsNormal.neg {f : UnpackedFloat} (h : IsNormal f) : IsNormal f.neg := by
  obtain ⟨s, m, e, hm, rfl, hbounds⟩ := h
  exact ⟨-s, m, e, hm, rfl, hbounds⟩

/-! ## Integers -/

theorem beq_zero_of_isNormal {x : Float} (h : IsNormal x.toModel.unpack) :
    (x == 0.0) = false := by
  have hbeq : (x == 0.0) = x.toModel.unpack.beq (.zero .positive) := rfl
  obtain ⟨s, m, e, hm, heq, -⟩ := h
  rw [hbeq, heq]
  cases s <;> rfl

theorem isNormal_toFloat {n : UInt64} (h : n ≠ 0) : IsNormal n.toFloat.toModel.unpack := by
  have hn : n.toNat ≠ 0 := fun hzero => h (UInt64.toNat_inj.1 hzero)
  have hround : UnpackedFloat.ofUInt64 Format.binary64 n =
      round Format.binary64 .positive n.toNat 0 := by
    have hpos : compare (n.toNat : Int) 0 = .gt := by
      rw [Int.compare_eq_gt]
      omega
    rw [UnpackedFloat.ofUInt64, UnpackedFloat.ofNat, UnpackedFloat.ofInt,
      UnpackedFloat.normalize, hpos]
    rfl
  have hnormal := isNormal_round .positive hn n.toNat_lt
  rw [← hround] at hnormal
  exact hnormal.unpack_pack

theorem isNormal_neg {x : Float} (h : IsNormal x.toModel.unpack) :
    IsNormal (-x).toModel.unpack :=
  h.neg.unpack_pack

private theorem eq_zero_of_toUInt64 {n : Int64} (h : n.toUInt64 = 0) : n = 0 :=
  congrArg Int64.ofUInt64 h

theorem nearestDecimal_beq_zero {n : Int64} (h : n ≠ 0) : (nearestDecimal n == 0.0) = false := by
  apply beq_zero_of_isNormal
  rw [nearestDecimal]
  split
  · refine isNormal_neg (isNormal_toFloat fun hzero => h ?_)
    exact Int64.neg_inj.1 (eq_zero_of_toUInt64 hzero)
  · exact isNormal_toFloat fun hzero => h (eq_zero_of_toUInt64 hzero)

end Entail.Number
