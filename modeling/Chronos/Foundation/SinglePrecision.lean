import Mathlib

/-! # Single precision

The bits of a single-precision number: a sign, an exponent of eight bits and a fraction of
twenty-three. Whole numbers below 2²⁴ are stored exactly.
-/
namespace Chronos.Foundation

/-- The bits of a whole number from 1 to 2²⁴ - 1. -/
def singleOfNat (x : ℕ) : ℕ :=
  (127 + Nat.log2 x) * 2 ^ 23 + (x - 2 ^ Nat.log2 x) * 2 ^ (23 - Nat.log2 x)

def singleExponent (bits : ℕ) : ℕ := bits / 2 ^ 23 % 2 ^ 8

def singleFraction (bits : ℕ) : ℕ := bits % 2 ^ 23

/-- The number that the bits stand for, if it is one. -/
def singleValue (bits : ℕ) : Option ℚ :=
  let sign : ℚ := if bits / 2 ^ 31 % 2 = 0 then 1 else -1
  if singleExponent bits = 255 then none
  else if singleExponent bits = 0 then some (sign * singleFraction bits / 2 ^ 149)
  else some (sign * (2 ^ 23 + singleFraction bits) * 2 ^ singleExponent bits / 2 ^ 150)

section
variable {x : ℕ} (hpos : 0 < x) (hlt : x < 2 ^ 24)
include hpos hlt

theorem log2_le : Nat.log2 x ≤ 23 := Nat.lt_succ_iff.mp ((Nat.log2_lt hpos.ne').mpr hlt)

/-- The leading bit left out, the others fill the fraction from the top. -/
theorem fraction_add : 2 ^ 23 + (x - 2 ^ Nat.log2 x) * 2 ^ (23 - Nat.log2 x) =
    x * 2 ^ (23 - Nat.log2 x) := by
  have hlog := log2_le hpos hlt
  have hle : 2 ^ Nat.log2 x ≤ x := Nat.log2_self_le hpos.ne'
  have hsplit : 2 ^ 23 = 2 ^ Nat.log2 x * 2 ^ (23 - Nat.log2 x) := by
    rw [← pow_add, Nat.add_sub_cancel' hlog]
  rw [hsplit, ← Nat.add_mul, Nat.add_sub_cancel' hle]

theorem fraction_lt : (x - 2 ^ Nat.log2 x) * 2 ^ (23 - Nat.log2 x) < 2 ^ 23 := by
  have hlog := log2_le hpos hlt
  have hbits : x < 2 ^ (Nat.log2 x + 1) := Nat.lt_log2_self
  have hbound : x * 2 ^ (23 - Nat.log2 x) < 2 ^ 24 := by
    calc x * 2 ^ (23 - Nat.log2 x) < 2 ^ (Nat.log2 x + 1) * 2 ^ (23 - Nat.log2 x) :=
          Nat.mul_lt_mul_of_pos_right hbits (by positivity)
      _ = 2 ^ 24 := by
          rw [← pow_add]
          congr 1
          omega
  have hadd := fraction_add hpos hlt
  omega

theorem singleFraction_ofNat :
    singleFraction (singleOfNat x) = (x - 2 ^ Nat.log2 x) * 2 ^ (23 - Nat.log2 x) := by
  rw [singleFraction, singleOfNat, Nat.mul_add_mod_self_right,
    Nat.mod_eq_of_lt (fraction_lt hpos hlt)]

theorem singleOfNat_div : singleOfNat x / 2 ^ 23 = 127 + Nat.log2 x := by
  rw [singleOfNat, Nat.add_comm, Nat.add_mul_div_right _ _ (by positivity),
    Nat.div_eq_of_lt (fraction_lt hpos hlt), Nat.zero_add]

theorem singleExponent_ofNat : singleExponent (singleOfNat x) = 127 + Nat.log2 x := by
  have hlog := log2_le hpos hlt
  rw [singleExponent, singleOfNat_div hpos hlt]
  omega

theorem singleOfNat_lt : singleOfNat x < 2 ^ 31 := by
  have hlog := log2_le hpos hlt
  have hdiv := singleOfNat_div hpos hlt
  omega

/-- A whole number is read back as it was stored. -/
theorem singleValue_ofNat : singleValue (singleOfNat x) = some (x : ℚ) := by
  have hlog := log2_le hpos hlt
  have hadd : (2 ^ 23 + ((x - 2 ^ Nat.log2 x) * 2 ^ (23 - Nat.log2 x) : ℕ) : ℚ) =
    x * 2 ^ (23 - Nat.log2 x) := by
    exact_mod_cast fraction_add hpos hlt
  have hsign : singleOfNat x / 2 ^ 31 = 0 := Nat.div_eq_of_lt (singleOfNat_lt hpos hlt)
  have hpow : (2 : ℚ) ^ (23 - Nat.log2 x) * 2 ^ (127 + Nat.log2 x) = 2 ^ 150 := by
    rw [← pow_add]
    congr 1
    omega
  unfold singleValue
  rw [singleExponent_ofNat hpos hlt, singleFraction_ofNat hpos hlt, hsign, if_neg (by omega),
    if_neg (by omega), hadd]
  simp only [Nat.zero_mod, if_true, one_mul]
  rw [mul_assoc, hpow, mul_div_assoc, div_self (by positivity), mul_one]

end

end Chronos.Foundation
