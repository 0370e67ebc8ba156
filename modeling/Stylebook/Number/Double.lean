/-!
# Doubles

A finite number of double precision is a sign, a mantissa below 2⁵³ and a
power of two between −1074 and 971: the value `± mantissa · 2 ^ exponent`. A
double carries the bounds along. Only two operations are needed here, and
both are exact arithmetic on natural numbers. `Double.ofRatio?` rounds a
quotient to the nearest double. `Double.digits` finds the shortest decimal
numeral that rounds back to a double, and of the shortest ones the nearest.
-/

namespace Stylebook

/-- The least exponent of two. -/
def Double.leastExponent : Int := -1074

/-- The greatest exponent of two. -/
def Double.greatestExponent : Int := 971

/-- **A finite number of double precision.** The mantissa has 53 bits, save
where the exponent is the least one. -/
structure Double where
  negative : Bool
  mantissa : Nat
  exponent : Int
  mantissa_lt : mantissa < Nat.pow 2 53
  le_exponent : Double.leastExponent ≤ exponent
  exponent_le : exponent ≤ Double.greatestExponent
  deriving DecidableEq, Repr

namespace Double

/-- Zero with a sign. -/
def zero (negative : Bool) : Double :=
  ⟨negative, 0, leastExponent, by decide, by decide, by decide⟩

/-! ## Rounding -/

/-- `x · 2 ^ e` as a quotient of natural numbers. -/
def scale (num den : Nat) (e : Int) : Nat × Nat :=
  if 0 ≤ e then (num * Nat.pow 2 e.toNat, den) else (num, den * Nat.pow 2 (-e).toNat)

theorem scale_eq (num den : Nat) (e : Int) :
    scale num den e = (num * Nat.pow 2 e.toNat, den * Nat.pow 2 (-e).toNat) := by
  unfold scale
  split
  · have hden : Nat.pow 2 (-e).toNat = 1 := by
      rw [show (-e).toNat = 0 by omega, Nat.pow]
    rw [hden, Nat.mul_one]
  · have hnum : Nat.pow 2 e.toNat = 1 := by
      rw [show e.toNat = 0 by omega, Nat.pow]
    rw [hnum, Nat.mul_one]

theorem pow_two_add (a b : Nat) : Nat.pow 2 (a + b) = Nat.pow 2 a * Nat.pow 2 b :=
  Nat.pow_add 2 a b

theorem pow_two_pos (a : Nat) : 0 < Nat.pow 2 a := Nat.pow_pos (by decide)

/-- A quotient that is scaled less than its bound stays below it. -/
theorem scale_lt {num den bound j : Nat} {e e' : Int} (hle : e' ≤ e + j)
    (h : (scale num den e).1 < bound * (scale num den e).2) :
    (scale num den e').1 < bound * Nat.pow 2 j * (scale num den e').2 := by
  rw [scale_eq] at h ⊢
  have hmono : Nat.pow 2 (e'.toNat + (-e).toNat) ≤ Nat.pow 2 (e.toNat + (-e').toNat + j) :=
    Nat.pow_le_pow_right (by decide) (by omega)
  refine Nat.lt_of_mul_lt_mul_right (a := Nat.pow 2 (e.toNat + (-e).toNat)) ?_
  calc num * Nat.pow 2 e'.toNat * Nat.pow 2 (e.toNat + (-e).toNat)
      = num * Nat.pow 2 e.toNat * Nat.pow 2 (e'.toNat + (-e).toNat) := by
        simp only [pow_two_add]
        ac_rfl
    _ < bound * (den * Nat.pow 2 (-e).toNat) * Nat.pow 2 (e'.toNat + (-e).toNat) :=
        Nat.mul_lt_mul_of_pos_right h (pow_two_pos _)
    _ ≤ bound * (den * Nat.pow 2 (-e).toNat) * Nat.pow 2 (e.toNat + (-e').toNat + j) :=
        Nat.mul_le_mul_left _ hmono
    _ = bound * Nat.pow 2 j * (den * Nat.pow 2 (-e').toNat)
          * Nat.pow 2 (e.toNat + (-e).toNat) := by
        simp only [pow_two_add]
        ac_rfl

/-- The natural number nearest to a quotient; a half goes to the even
neighbour. -/
def nearestNat (num den : Nat) : Nat :=
  let q := num / den
  let r := num % den
  if 2 * r > den || (2 * r = den && q % 2 = 1) then q + 1 else q

theorem nearestNat_le {num den bound : Nat} (h : num < bound * den) :
    nearestNat num den ≤ bound := by
  have hq : num / den < bound := Nat.div_lt_of_lt_mul (by rwa [Nat.mul_comm] at h)
  unfold nearestNat
  dsimp only
  split <;> omega

/-- The exponent of two that leaves the whole part of a quotient 53 bits, or
the least exponent where that is smaller. -/
def exponentFor (num den : Nat) : Int :=
  let guess : Int := (Nat.log2 num : Int) - (Nat.log2 den : Int) - 52
  let (a, b) := scale num den (-guess)
  let fitted := if a / b < Nat.pow 2 52 then guess - 1 else guess
  max leastExponent fitted

/-- The exponent leaves no more than 53 bits. -/
theorem scale_exponentFor_lt {num den : Nat} (hden : 0 < den) :
    (scale num den (-exponentFor num den)).1
      < Nat.pow 2 53 * (scale num den (-exponentFor num den)).2 := by
  unfold exponentFor
  dsimp only
  obtain ⟨guess, hguess⟩ : ∃ guess : Int, guess = num.log2 - den.log2 - 52 := ⟨_, rfl⟩
  rw [← hguess]
  split
  · -- at the guess there is a bit to spare
    rename_i hfit
    have hpos : 0 < (scale num den (-guess)).2 := by
      rw [scale_eq]
      exact Nat.mul_pos hden (pow_two_pos _)
    have hlt : (scale num den (-guess)).1 < Nat.pow 2 52 * (scale num den (-guess)).2 :=
      (Nat.div_lt_iff_lt_mul hpos).mp hfit
    have hle : -max leastExponent (guess - 1) ≤ -guess + (1 : Nat) := by omega
    exact scale_lt hle hlt
  · have hlt : (scale num den (-guess)).1 < Nat.pow 2 53 * (scale num den (-guess)).2 := by
      rw [scale_eq]
      calc num * Nat.pow 2 (-guess).toNat
          < Nat.pow 2 (num.log2 + 1) * Nat.pow 2 (-guess).toNat :=
            Nat.mul_lt_mul_of_pos_right Nat.lt_log2_self (pow_two_pos _)
        _ = Nat.pow 2 53 * (Nat.pow 2 den.log2 * Nat.pow 2 (- -guess).toNat) := by
            simp only [← pow_two_add]
            congr 1
            omega
        _ ≤ Nat.pow 2 53 * (den * Nat.pow 2 (- -guess).toNat) :=
            Nat.mul_le_mul_left _ (Nat.mul_le_mul_right _ (Nat.log2_self_le (Nat.ne_of_gt hden)))
    have hle : -max leastExponent guess ≤ -guess + (0 : Nat) := by omega
    exact scale_lt hle hlt

theorem le_exponentFor (num den : Nat) : leastExponent ≤ exponentFor num den :=
  Int.le_max_left ..

/-- The mantissa and the exponent nearest to a quotient. A mantissa that is
rounded up to 54 bits is halved. -/
def rounded (num den : Nat) : Nat × Int :=
  let e := exponentFor num den
  let (a, b) := scale num den (-e)
  let m := nearestNat a b
  if m = Nat.pow 2 53 then (Nat.pow 2 52, e + 1) else (m, e)

theorem rounded_fst_lt (num den : Nat) : (rounded num den).1 < Nat.pow 2 53 := by
  have hle : nearestNat (scale num den (-exponentFor num den)).1
      (scale num den (-exponentFor num den)).2 ≤ Nat.pow 2 53 := by
    by_cases hden : 0 < den
    · exact nearestNat_le (scale_exponentFor_lt hden)
    · -- without a denominator the quotient counts as zero
      have hzero : (scale num den (-exponentFor num den)).2 = 0 := by
        rw [scale_eq, Nat.eq_zero_of_not_pos hden, Nat.zero_mul]
      rw [hzero]
      unfold nearestNat
      dsimp only
      rw [Nat.div_zero]
      split <;> decide
  unfold rounded
  dsimp only
  split
  · show Nat.pow 2 52 < Nat.pow 2 53
    decide
  · rename_i hne
    exact Nat.lt_of_le_of_ne hle hne

theorem le_rounded_snd (num den : Nat) : leastExponent ≤ (rounded num den).2 := by
  have hle := le_exponentFor num den
  unfold rounded
  dsimp only
  split
  · exact Int.le_add_one hle
  · exact hle

/-- **The double nearest to a quotient**, a half going to the even mantissa;
`none` beyond the greatest double. -/
def ofRatio? (negative : Bool) (num den : Nat) : Option Double :=
  if num = 0 then some (zero negative)
  else if hle : (rounded num den).2 ≤ greatestExponent then
    some ⟨negative, (rounded num den).1, (rounded num den).2, rounded_fst_lt num den,
      le_rounded_snd num den, hle⟩
  else none

/-- The double nearest to the decimal `digits · 10 ^ power`. -/
def ofDecimal? (negative : Bool) (digits : Nat) (power : Int) : Option Double :=
  if 0 ≤ power then ofRatio? negative (digits * Nat.pow 10 power.toNat) 1
  else ofRatio? negative digits (Nat.pow 10 (-power).toNat)

/-! ## Digits -/

/-- Zero, of either sign. -/
def isZero (x : Double) : Bool := x.mantissa = 0

/-- Whether `4 · num / den` lies between the ends of the reals that round to
a positive double, which are given in quarters of its unit, with the ends
when the mantissa is even. -/
def roundsTo (x : Double) (num den : Nat) : Bool :=
  let below := if x.mantissa = Nat.pow 2 52 && leastExponent < x.exponent then 1 else 2
  let low := (4 * x.mantissa - below) * den
  let high := (4 * x.mantissa + 2) * den
  let at4 := 4 * num
  if x.mantissa % 2 = 0 then low ≤ at4 && at4 ≤ high else low < at4 && at4 < high

/-- `digits · 10 ^ power` in units of the double's exponent, as a quotient. -/
def inUnits (x : Double) (digits : Nat) (power : Int) : Nat × Nat :=
  let (a, b) := if 0 ≤ power then (digits * Nat.pow 10 power.toNat, 1)
    else (digits, Nat.pow 10 (-power).toNat)
  scale a b (-x.exponent)

/-- The whole number of times that `10 ^ power` goes into a positive double. -/
def wholeTimes (x : Double) (power : Int) : Nat :=
  let (a, b) := inUnits x 1 power
  x.mantissa * b / a

/-- The decimal exponent of a positive double: that of its first digit. -/
def decimalExponent (x : Double) : Int :=
  let bits : Int := (Nat.log2 x.mantissa : Int) + x.exponent
  let guess : Int := Int.fdiv (bits * 30103) 100000
  if wholeTimes x (guess + 1) ≥ 1 then guess + 1
  else if wholeTimes x guess ≥ 1 then guess
  else guess - 1

/-- Whether `low · 10 ^ power` is nearer to a positive double than the next
multiple of `10 ^ power`; at equal distance the even one counts as nearer. -/
def lowIsNearer (x : Double) (low : Nat) (power : Int) : Bool :=
  let (a, b) := inUnits x 1 power
  let twice := 2 * x.mantissa * b
  let middle := (2 * low + 1) * a
  twice < middle || (twice = middle && low % 2 = 0)

/-- The multiple of `10 ^ power` that rounds to a positive double, the
nearer one of two. -/
def multiple? (x : Double) (power : Int) : Option Nat :=
  let low := wholeTimes x power
  let fits (n : Nat) : Bool :=
    let (a, b) := inUnits x n power
    roundsTo x a b
  match fits low, fits (low + 1) with
  | true, true => some (if lowIsNearer x low power then low else low + 1)
  | true, false => some low
  | false, true => some (low + 1)
  | false, false => none

/-- The first of the grids with `count`, `count + 1`, … digits on which a
positive double has a numeral; with seventeen digits every double has one. -/
def firstGrid (x : Double) (top : Int) : (more count : Nat) → Nat × Int
  | 0, count => (wholeTimes x (top - count + 1), top - count + 1)
  | more + 1, count =>
    let power := top - count + 1
    match multiple? x power with
    | some n => (n, power)
    | none => firstGrid x top more (count + 1)

/-- A numeral without zeros at its end. -/
def dropZeros : (limit : Nat) → Nat → Int → Nat × Int
  | limit + 1, n, power =>
    if n ≠ 0 && n % 10 = 0 then dropZeros limit (n / 10) (power + 1) else (n, power)
  | 0, n, power => (n, power)

/-- **The shortest numeral of a positive double**: `(n, p)` stands for `n ·
10 ^ p`, and `n` has no zero at its end. -/
def digits (x : Double) : Nat × Int :=
  let (n, power) := firstGrid x (decimalExponent x) 17 1
  dropZeros 20 n power

end Double

end Stylebook
