import HygienicLisp.Primitive.Arithmetic
import Mathlib

/-!
# Integers as doubles

An integer that takes part in a comparison or a division with a double is rounded to the nearest
one first.  Rounding never loses the sign: the double is zero for zero only, so a test for zero
that is made on doubles answers for integers as well, and an ordering that is made into `-1`, `0`
or `1` is still the same ordering.

A double other than zero is recognised by the bits of its exponent.
-/

namespace HygienicLisp

namespace Binary64

open Float.Model (UnpackedFloat)
open Float.Model.Format (binary64)
open Float.Model.UnpackedFloat (unpackExponent unpackExponent_packComponents)

/-! ## Zero among the doubles -/

/-- The bits of the exponent. -/
def exponentField (b : BitVec 64) : BitVec 11 := @unpackExponent binary64 b

theorem exponentField_ofNat (n : Nat) :
    (exponentField (UInt64.ofNat n).toBitVec).toNat = n / exponentBit % 2048 := by
  simp [exponentField, unpackExponent, exponentBit, Nat.shiftRight_eq_div_pow]
  omega

theorem log2_one_append (m : BitVec 52) : (1#1 ++ m).toNat.log2 = 52 := by
  have hm := m.isLt
  have happend : (1#1 ++ m).toNat = 2 ^ 52 + m.toNat := by
    rw [BitVec.toNat_append, BitVec.toNat_ofNat, ← Nat.shiftLeft_add_eq_or_of_lt hm]
    rfl
  rw [happend, Nat.log2_eq_iff (by omega)]
  omega

/-- Reading a double and writing it again does not clear its exponent. -/
theorem exponentField_pack_unpack {b : BitVec 64} (h : exponentField b ≠ 0#11) :
    exponentField (UnpackedFloat.pack binary64 (UnpackedFloat.unpack binary64 b)) ≠ 0#11 := by
  unfold exponentField at h ⊢
  fun_cases UnpackedFloat.unpack binary64 b with
  | case1 => simp [UnpackedFloat.pack, UnpackedFloat.packedInfinity]
  | case2 => simp [UnpackedFloat.pack, UnpackedFloat.packedNaN]
  | case3 => contradiction
  | case4 => contradiction
  | case5 mantissa exponentVec exponent signVec sign hinf hzero =>
      rw [UnpackedFloat.pack]
      dsimp only
      rw [log2_one_append]
      split
      · simp [UnpackedFloat.packedInfinity]
      · have hexponent :
            (exponent + binary64.exponentBias + (52 : Nat)).toNat = exponentVec.toNat := by
          change ((exponentVec.toNat : Int) - (1023 + 52) + 1023 + 52).toNat = _
          omega
        rw [hexponent, if_pos (by decide : 52 + 1 = binary64.mantissaBits),
          unpackExponent_packComponents, BitVec.ofNat_toNat]
        simpa using h

theorem unpack_ne_zero {b : BitVec 64} (h : exponentField b ≠ 0#11) (s : UnpackedFloat.Sign) :
    UnpackedFloat.unpack binary64 b ≠ .zero s := by
  unfold exponentField at h
  fun_cases UnpackedFloat.unpack binary64 b with
  | case1 | case2 | case4 | case5 => simp
  | case3 => contradiction

theorem compare_zero_ne_eq {x : UnpackedFloat} (h : ∀ s, x ≠ .zero s) (s : UnpackedFloat.Sign) :
    x.compare (.zero s) ≠ some .eq := by
  cases x with
  | zero t => exact absurd rfl (h t)
  | infinity t => cases t <;> simp [UnpackedFloat.compare]
  | notANumber => simp [UnpackedFloat.compare]
  | finite t => cases t <;> simp [UnpackedFloat.compare]

theorem unpack_zero : (0 : Float).toModel.unpack = .zero .positive := by
  have hpacked : (0 : Float).toModel = Float.Model.pack (.zero .positive) := by decide +kernel
  rw [hpacked]
  rfl

/-- A double with a bit in its exponent is not zero. -/
theorem ofBits_beq_zero {b : UInt64} (h : exponentField b.toBitVec ≠ 0#11) :
    (Float.ofBits b == 0) = false := by
  have hne := compare_zero_ne_eq (unpack_ne_zero (exponentField_pack_unpack h)) .positive
  change (UnpackedFloat.compare (Float.ofBits b).toModel.unpack (0 : Float).toModel.unpack
    == some .eq) = false
  rw [unpack_zero]
  exact beq_eq_false_iff_ne.mpr hne

/-! ## Rounding an integer -/

/-- The last place that is kept of an integer is not far below the units. -/
theorem lastPlace_one (num : Nat) : -53 ≤ lastPlace num 1 := by
  have hlog : Nat.log2 1 = 0 := by decide
  rw [lastPlace, hlog]
  omega

theorem nearestBits_one {num : Nat} (h : num ≠ 0) :
    exponentBit ≤ nearestBits num 1 ∧ nearestBits num 1 ≤ infinityBits := by
  have hplace := lastPlace_one num
  rw [nearestBits, if_neg h]
  dsimp only
  generalize (if lastPlace num 1 < 0 then _ else _) = mantissa
  have hscale : 1 ≤ (lastPlace num 1 + 1074).toNat := by omega
  have hexponent := Nat.mul_le_mul_right exponentBit hscale
  unfold infinityBits exponentBit at *
  omega

/-- The double nearest to an integer is zero for zero only. -/
theorem ofInt_beq_zero (n : Int) : (ofInt n == 0) = decide (n = 0) := by
  by_cases hn : n = 0
  · subst hn
    decide +kernel
  · rw [decide_eq_false hn]
    obtain ⟨hlo, hhi⟩ := nearestBits_one (Int.natAbs_ne_zero.mpr hn)
    refine ofBits_beq_zero fun hfield => ?_
    have hbits := exponentField_ofNat
      (if n < 0 then nearestBits n.natAbs 1 + signBit else nearestBits n.natAbs 1)
    rw [hfield] at hbits
    change 0 = _ at hbits
    unfold infinityBits exponentBit signBit at *
    split at hbits <;> omega

end Binary64

/-- An integer divisor is taken for zero exactly if it is zero. -/
theorem Number.toFloat_int_beq_zero (i : Int64) :
    ((Number.int i).toFloat == 0) = decide (i.toInt = 0) :=
  Binary64.ofInt_beq_zero i.toInt

end HygienicLisp
