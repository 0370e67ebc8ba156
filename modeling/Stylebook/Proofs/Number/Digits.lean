import Mathlib.Algebra.Order.Field.Power
import Mathlib.Data.Rat.Cast.Order
import Mathlib.Tactic.NormNum
import Mathlib.Tactic.Positivity
import Stylebook.Number.Double

/-!
# The digits of a double

The shortest numeral of a double other than zero has a digit other than zero
in front (`Double.digits_fst_pos`). A digit is found by counting how many
times a power of ten goes into the double, and this is not zero for any
power that the search tries. It starts at the decimal exponent, which is
estimated from the number of bits. The estimate may be too great by one, as
`10 ^ 0.30103` is a little more than two, and not by more as long as the
bits stay in the range of doubles (`Double.ten_zpow_le`).
-/

namespace Stylebook.Double

variable {x : Double} {power power' : Int}

/-! ## How often a power of ten goes into a double

All is done in whole numbers by the program, with the powers on either side
of the comparison. What is compared is told here by fractions. -/

/-- A power as a quotient of powers without signs. -/
theorem zpow_eq_div {b : ℚ} (hb : 0 < b) (e : Int) : b ^ e = b ^ e.toNat / b ^ (-e).toNat := by
  rw [eq_div_iff (by positivity), ← zpow_natCast, ← zpow_natCast, ← zpow_add₀ hb.ne']
  congr 1
  omega

/-- A double and a power of ten, in a unit that makes whole numbers of both. -/
theorem inUnits_one (x : Double) (power : Int) :
    inUnits x 1 power = (10 ^ power.toNat * 2 ^ (-x.exponent).toNat,
      10 ^ (-power).toNat * 2 ^ x.exponent.toNat) := by
  unfold inUnits
  dsimp only
  rw [scale_eq, neg_neg]
  split
  · rw [show (-power).toNat = 0 by omega, one_mul]
    rfl
  · rw [show power.toNat = 0 by omega]
    rfl

/-- **A power of ten goes into a double** when it is not greater. -/
theorem one_le_wholeTimes_iff :
    1 ≤ wholeTimes x power ↔ (10 : ℚ) ^ power ≤ x.mantissa * 2 ^ x.exponent := by
  unfold wholeTimes
  rw [inUnits_one, zpow_eq_div (by norm_num), zpow_eq_div (by norm_num) x.exponent]
  dsimp only
  rw [Nat.one_le_div_iff (by positivity), mul_div_assoc', div_le_div_iff₀ (by positivity)
    (by positivity), ← Nat.cast_le (α := ℚ), mul_assoc, mul_comm (2 ^ _) (10 ^ _)]
  push_cast
  exact Iff.rfl

/-- A smaller power goes into it as well. -/
theorem one_le_wholeTimes_of_le (h : 1 ≤ wholeTimes x power) (hle : power' ≤ power) :
    1 ≤ wholeTimes x power' := by
  rw [one_le_wholeTimes_iff] at h ⊢
  exact (zpow_le_zpow_right₀ (by norm_num) hle).trans h

/-! ## The decimal exponent

The exponent of ten is estimated from that of two by one multiplication. The
estimate need not be right. It has to be near enough for the search that
starts from it. -/

/-- Powers of ten and two are compared by a fraction near the logarithm. -/
theorem ten_zpow_le_of_fraction {bits power : Int} {r k : ℕ} (hk : k ≠ 0)
    (hpower : power * k ≤ r * bits) (hbase : ((10 : ℚ) ^ r) ^ bits ≤ (2 ^ k) ^ bits) :
    (10 : ℚ) ^ power ≤ 2 ^ bits := by
  refine le_of_pow_le_pow_left₀ hk (by positivity) ?_
  calc ((10 : ℚ) ^ power) ^ k = 10 ^ (power * k) := by rw [zpow_mul, zpow_natCast]
    _ ≤ 10 ^ (r * bits) := zpow_le_zpow_right₀ (by norm_num) hpower
    _ = (10 ^ r) ^ bits := by rw [zpow_mul, zpow_natCast]
    _ ≤ (2 ^ k) ^ bits := hbase
    _ = (2 ^ bits) ^ k := by rw [← zpow_natCast, ← zpow_mul, mul_comm, zpow_mul, zpow_natCast]

/-- **The estimate of the decimal exponent** is too great by one at most:
for as many bits as a double can have, one power of ten less is not above
the power of two. -/
theorem ten_zpow_le {bits power : Int} (hlow : leastExponent ≤ bits) (hhigh : bits < 1024)
    (h : 100000 * (power + 1) ≤ 30103 * bits) : (10 : ℚ) ^ power ≤ 2 ^ bits := by
  unfold leastExponent at hlow
  rcases le_total 0 bits with hbits | hbits
  · -- 31 / 103 is a little less than the logarithm
    have hpower : power * (103 : ℕ) ≤ (31 : ℕ) * bits := by
      push_cast
      omega
    exact ten_zpow_le_of_fraction (by decide) hpower
      (zpow_le_zpow_left₀ hbits (by positivity) (by norm_num))
  · -- 28 / 93 is a little more, which counts below one
    have hpower : power * (93 : ℕ) ≤ (28 : ℕ) * bits := by
      push_cast
      omega
    obtain ⟨n, rfl⟩ := Int.exists_eq_neg_ofNat hbits
    refine ten_zpow_le_of_fraction (by decide) hpower ?_
    rw [zpow_neg, zpow_neg, zpow_natCast, zpow_natCast]
    exact inv_anti₀ (by positivity) (pow_le_pow_left₀ (by positivity) (by norm_num) n)

/-- A double has its leading bit. -/
theorem two_zpow_le (h : x.isZero = false) :
    (2 : ℚ) ^ ((Nat.log2 x.mantissa : Int) + x.exponent) ≤ x.mantissa * 2 ^ x.exponent := by
  have hne : x.mantissa ≠ 0 := of_decide_eq_false h
  have hlog : ((2 ^ Nat.log2 x.mantissa : ℕ) : ℚ) ≤ x.mantissa := by
    exact_mod_cast Nat.log2_self_le hne
  rw [zpow_add₀ two_ne_zero, zpow_natCast]
  push_cast at hlog
  gcongr

/-- **The power of ten of the decimal exponent goes into the double.** -/
theorem one_le_wholeTimes_decimalExponent (h : x.isZero = false) :
    1 ≤ wholeTimes x (decimalExponent x) := by
  unfold decimalExponent
  dsimp only
  split
  · assumption
  · split
    · assumption
    · have hlog : Nat.log2 x.mantissa < 53 :=
        (Nat.log2_lt (of_decide_eq_false h)).mpr x.mantissa_lt
      have hlow := x.le_exponent
      have hhigh := x.exponent_le
      unfold greatestExponent at hhigh
      rw [one_le_wholeTimes_iff]
      refine le_trans (ten_zpow_le (by omega) (by omega) ?_) (two_zpow_le h)
      rw [Int.fdiv_eq_ediv_of_nonneg _ (by decide)]
      omega

/-! ## The digits

The search looks for a multiple of a power of ten near enough to the double,
with larger powers first. Whichever is found is not zero. -/

/-- A multiple that is found is not zero. -/
theorem one_le_of_multiple? {n : ℕ} (h : multiple? x power = some n)
    (hone : 1 ≤ wholeTimes x power) : 1 ≤ n := by
  unfold multiple? at h
  dsimp only at h
  split at h
  · split at h <;> cases h <;> omega
  · cases h
    exact hone
  · cases h
    omega
  · cases h

/-- The first multiple that is found is not zero. -/
theorem one_le_firstGrid {top : Int} (h : 1 ≤ wholeTimes x top) (more : ℕ) {count : ℕ}
    (hcount : 1 ≤ count) : 1 ≤ (firstGrid x top more count).1 := by
  induction more generalizing count with
  | zero => exact one_le_wholeTimes_of_le h (by omega)
  | succ more ih =>
    rw [firstGrid]
    split
    · rename_i n hn
      exact one_le_of_multiple? hn (one_le_wholeTimes_of_le h (by omega))
    · exact ih (by omega)

/-- A number that is not zero stays so when zeros at its end are dropped. -/
theorem one_le_dropZeros (limit : ℕ) {n : ℕ} (h : 1 ≤ n) (power : Int) :
    1 ≤ (dropZeros limit n power).1 := by
  induction limit generalizing n power with
  | zero => exact h
  | succ limit ih =>
    rw [dropZeros]
    split
    · rename_i hzero
      refine ih ?_ _
      simp only [Bool.and_eq_true, decide_eq_true_eq] at hzero
      omega
    · exact h

/-- **The digits of a double** other than zero do not stand for zero. -/
theorem digits_fst_pos (h : x.isZero = false) : 0 < x.digits.1 :=
  one_le_dropZeros 20 (one_le_firstGrid (one_le_wholeTimes_decimalExponent h) 17 (le_refl 1)) _

end Stylebook.Double
