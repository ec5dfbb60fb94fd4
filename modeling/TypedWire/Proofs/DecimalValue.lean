import TypedWire.Decimal
import Mathlib.Algebra.Order.Field.Power
import Mathlib.Order.Compare
import Mathlib.Tactic.FieldSimp
import Mathlib.Tactic.Linarith
import Mathlib.Tactic.NormNum
import Mathlib.Tactic.Positivity
import Mathlib.Tactic.Ring

/-! The rational number that a decimal stands for. `order` is the order of these numbers, and `normal` is
the one normal form with the same number, if the scale has room for it. -/

namespace TypedWire.Decimal

/-- The number `digits * 10 ^ (-scale)`. -/
def value (d : Decimal) : ℚ := d.digits * 10 ^ (-d.scale.toInt)

/-- How many trailing zeros the digits have. -/
def trailingZeros (d : Decimal) : Nat := (stripZeros d.digits.natAbs).2

def reducedDigits (d : Decimal) : ℤ := d.digits.sign * (stripZeros d.digits.natAbs).1

/-- The scale that the digits have without their trailing zeros, however many bits it needs. -/
def reducedScale (d : Decimal) : ℤ := d.scale.toInt - d.trailingZeros

/-- The scale has room for the trailing zeros. -/
def ScaleFits (d : Decimal) : Prop := -2 ^ 63 ≤ d.scale.toInt - d.trailingZeros

/-- Zero with scale zero, or digits that ten does not divide. -/
def IsNormal (d : Decimal) : Prop := (d.digits = 0 ∧ d.scale = 0) ∨ d.digits % 10 ≠ 0

theorem eq_iff (a b : Decimal) : a = b ↔ a.digits = b.digits ∧ a.scale = b.scale := by
  rw [← mk.injEq]

/-! ### Digits -/

theorem digitCount_zero : digitCount 0 = 0 := by rw [digitCount]; rfl

theorem digitCount_of_pos {n : Nat} (positive : 0 < n) : digitCount n = digitCount (n / 10) + 1 := by
  rw [digitCount, if_neg (by omega)]

theorem lt_pow_digitCount (n : Nat) : n < 10 ^ digitCount n := by
  induction n using Nat.strongRecOn with
  | _ n ih =>
    by_cases zero : n = 0
    · rw [zero, digitCount_zero]; decide
    · have smaller := ih (n / 10) (by omega)
      rw [digitCount_of_pos (by omega), Nat.pow_succ]
      omega

theorem pow_digitCount_le {n : Nat} (positive : 0 < n) : 10 ^ digitCount n ≤ 10 * n := by
  induction n using Nat.strongRecOn with
  | _ n ih =>
    rw [digitCount_of_pos positive, Nat.pow_succ]
    by_cases small : n / 10 = 0
    · rw [small, digitCount_zero]; omega
    · have smaller := ih (n / 10) (by omega) (by omega)
      omega

/-! ### The order -/

private theorem ten_zpow_pos (s : ℤ) : (0 : ℚ) < 10 ^ s := zpow_pos (by norm_num) s

/-- A positive number lies between the powers of ten that its first digit marks. -/
private theorem magnitude_bounds {n : Nat} (positive : 0 < n) (t : ℤ) :
    (10 : ℚ) ^ ((digitCount n : ℤ) - t - 1) ≤ n * 10 ^ (-t) ∧
      (n : ℚ) * 10 ^ (-t) < 10 ^ ((digitCount n : ℤ) - t) := by
  have nonzero : (10 : ℚ) ≠ 0 := by norm_num
  have lower : ((10 ^ digitCount n : Nat) : ℚ) ≤ ((10 * n : Nat) : ℚ) := by
    exact_mod_cast pow_digitCount_le positive
  have upper : (n : ℚ) < ((10 ^ digitCount n : Nat) : ℚ) := by exact_mod_cast lt_pow_digitCount n
  have scale := ten_zpow_pos (-t)
  push_cast at lower upper
  constructor
  · have split : (10 : ℚ) ^ ((digitCount n : ℤ) - t - 1) = 10 ^ digitCount n * 10 ^ (-t) / 10 := by
      rw [sub_eq_add_neg (digitCount n : ℤ) t, zpow_sub_one₀ nonzero, zpow_add₀ nonzero, zpow_natCast]
      rfl
    rw [split, div_le_iff₀ (by norm_num)]
    nlinarith
  · rw [sub_eq_add_neg, zpow_add₀ nonzero, zpow_natCast]
    nlinarith

private theorem orderMagnitudes_eq {m n : Nat} (positiveM : 0 < m) (positiveN : 0 < n) (s t : ℤ) :
    orderMagnitudes m s n t = compare ((m : ℚ) * 10 ^ (-s)) (n * 10 ^ (-t)) := by
  have nonzero : (10 : ℚ) ≠ 0 := by norm_num
  obtain ⟨lowerM, upperM⟩ := magnitude_bounds positiveM s
  obtain ⟨lowerN, upperN⟩ := magnitude_bounds positiveN t
  have mono : ∀ {a b : ℤ}, a ≤ b → (10 : ℚ) ^ a ≤ 10 ^ b := fun le => zpow_le_zpow_right₀ (by norm_num) le
  unfold orderMagnitudes
  rcases lt_trichotomy ((digitCount m : ℤ) - s) ((digitCount n : ℤ) - t) with below | equal | above
  · rw [compare_lt_iff_lt.mpr below]
    have apart := mono (show (digitCount m : ℤ) - s ≤ (digitCount n : ℤ) - t - 1 by omega)
    exact (compare_lt_iff_lt.mpr (by linarith)).symm
  · rw [compare_eq_iff_eq.mpr equal]
    -- Both numbers are multiples of the lower of the two powers of ten.
    have scaled : ∀ (k : Nat) (u v : ℤ),
        ((k * 10 ^ (v - u).toNat : Nat) : ℚ) = k * 10 ^ (-u) * 10 ^ max u v := by
      intro k u v
      have power : ((v - u).toNat : ℤ) = -u + max u v := by omega
      push_cast
      rw [mul_assoc, ← zpow_add₀ nonzero, ← power, zpow_natCast]
    have common := ten_zpow_pos (max s t)
    have left := scaled m s t
    have right := scaled n t s
    rw [max_comm] at right
    rcases lt_trichotomy ((m : ℚ) * 10 ^ (-s)) (n * 10 ^ (-t)) with less | same | more
    · rw [compare_lt_iff_lt.mpr less, compare_lt_iff_lt]
      exact_mod_cast left ▸ right ▸ mul_lt_mul_of_pos_right less common
    · rw [compare_eq_iff_eq.mpr same, compare_eq_iff_eq]
      rw [same, ← right] at left
      exact_mod_cast left
    · rw [compare_gt_iff_gt.mpr more, compare_gt_iff_gt]
      exact_mod_cast left ▸ right ▸ mul_lt_mul_of_pos_right more common
  · rw [compare_gt_iff_gt.mpr above]
    have apart := mono (show (digitCount n : ℤ) - t ≤ (digitCount m : ℤ) - s - 1 by omega)
    exact (compare_gt_iff_gt.mpr (by linarith)).symm

theorem value_pos_iff (d : Decimal) : 0 < d.value ↔ 0 < d.digits := by
  rw [value, mul_pos_iff_of_pos_right (ten_zpow_pos _), Int.cast_pos]

theorem value_neg_iff (d : Decimal) : d.value < 0 ↔ d.digits < 0 := by
  rw [value, ← not_le, ← not_le, mul_nonneg_iff_of_pos_right (ten_zpow_pos _), Int.cast_nonneg_iff]

theorem value_eq_zero_iff (d : Decimal) : d.value = 0 ↔ d.digits = 0 := by
  rw [value, mul_eq_zero_iff_right (ten_zpow_pos _).ne', Int.cast_eq_zero]

private theorem value_lt_of_sign_lt {a b : Decimal} (below : a.digits.sign < b.digits.sign) :
    a.value < b.value := by
  by_cases negative : a.digits < 0
  · by_cases also : b.digits < 0
    · rw [Int.sign_eq_neg_one_of_neg negative, Int.sign_eq_neg_one_of_neg also] at below
      exact absurd below (lt_irrefl _)
    · have nonneg : 0 ≤ b.value := not_lt.mp fun less => also ((value_neg_iff b).mp less)
      exact lt_of_lt_of_le ((value_neg_iff a).mpr negative) nonneg
  · have nonneg : 0 ≤ a.digits.sign := Int.sign_nonneg_iff.mpr (not_lt.mp negative)
    have positive : 0 < b.value := (value_pos_iff b).mpr (Int.sign_pos_iff.mp (lt_of_le_of_lt nonneg below))
    have zero : a.digits = 0 := by
      have top : b.digits.sign ≤ 1 := by rcases Int.sign_trichotomy b.digits with h | h | h <;> omega
      exact Int.sign_eq_zero_iff_zero.mp (by omega)
    rwa [(value_eq_zero_iff a).mpr zero]

/-- Decimals compare as the numbers that they stand for. -/
theorem order_eq_compare (a b : Decimal) : a.order b = compare a.value b.value := by
  unfold order
  rcases lt_trichotomy a.digits.sign b.digits.sign with below | equal | above
  · rw [compare_lt_iff_lt.mpr below, compare_lt_iff_lt.mpr (value_lt_of_sign_lt below)]
  · rw [compare_eq_iff_eq.mpr equal]
    rcases lt_trichotomy a.digits 0 with negative | zero | positive
    · have also : b.digits < 0 := by
        rw [Int.sign_eq_neg_one_of_neg negative] at equal
        exact Int.sign_eq_neg_one_iff_neg.mp equal.symm
      have flipped : compare a.value b.value = compare (-b.value) (-a.value) := by
        simp only [compare, compareOfLessAndEq, neg_lt_neg_iff, neg_inj, eq_comm]
      simp only [if_neg (not_lt.mpr negative.le), if_pos negative]
      rw [orderMagnitudes_eq (by omega) (by omega), flipped, Nat.cast_natAbs, Nat.cast_natAbs,
        abs_of_neg negative, abs_of_neg also]
      simp only [value, Int.cast_neg, neg_mul]
    · have also : b.digits = 0 := by
        rw [zero, Int.sign_zero] at equal
        exact Int.sign_eq_zero_iff_zero.mp equal.symm
      rw [(value_eq_zero_iff a).mpr zero, (value_eq_zero_iff b).mpr also]
      simp [zero]
    · have also : 0 < b.digits := by
        rw [Int.sign_eq_one_of_pos positive] at equal
        exact Int.sign_eq_one_iff_pos.mp equal.symm
      simp only [if_pos positive]
      rw [orderMagnitudes_eq (by omega) (by omega), Nat.cast_natAbs, Nat.cast_natAbs, abs_of_pos positive,
        abs_of_pos also]
      rfl
  · rw [compare_gt_iff_gt.mpr above, compare_gt_iff_gt.mpr (value_lt_of_sign_lt above)]

instance : Std.TransCmp order where
  eq_swap {a b} := by
    rw [order_eq_compare, order_eq_compare]
    exact Std.OrientedOrd.eq_swap
  isLE_trans {a b c} first second := by
    rw [order_eq_compare] at first second ⊢
    exact Std.TransOrd.isLE_trans first second

theorem order_eq_iff (a b : Decimal) : a.order b = .eq ↔ a.value = b.value := by
  rw [order_eq_compare, compare_eq_iff_eq]

/-! ### The normal form -/

theorem stripZeros_fst_mul_pow (n : Nat) : (stripZeros n).1 * 10 ^ (stripZeros n).2 = n := by
  induction n using Nat.strongRecOn with
  | _ n ih =>
    rw [stripZeros]
    by_cases divisible : n ≠ 0 ∧ n % 10 = 0
    · have smaller := ih (n / 10) (by omega)
      rw [if_pos divisible, Nat.pow_succ, ← Nat.mul_assoc, smaller]
      omega
    · simp [divisible]

theorem stripZeros_fst_mod {n : Nat} (nonzero : n ≠ 0) : (stripZeros n).1 % 10 ≠ 0 := by
  induction n using Nat.strongRecOn with
  | _ n ih =>
    rw [stripZeros]
    by_cases divisible : n ≠ 0 ∧ n % 10 = 0
    · rw [if_pos divisible]
      exact ih (n / 10) (by omega) (by omega)
    · rw [if_neg divisible]
      intro zero
      exact divisible ⟨nonzero, zero⟩

theorem stripZeros_of_mod {n : Nat} (indivisible : n % 10 ≠ 0) : stripZeros n = (n, 0) := by
  rw [stripZeros, if_neg (fun h => indivisible h.2)]

theorem trailingZeros_of_zero {d : Decimal} (zero : d.digits = 0) : d.trailingZeros = 0 := by
  rw [trailingZeros, zero, Int.natAbs_zero, stripZeros]
  rfl

theorem trailingZeros_of_isNormal {d : Decimal} (normal : d.IsNormal) : d.trailingZeros = 0 := by
  rcases normal with ⟨zero, -⟩ | indivisible
  · exact trailingZeros_of_zero zero
  · rw [trailingZeros, stripZeros_of_mod (by omega)]

theorem reducedDigits_of_zero {d : Decimal} (zero : d.digits = 0) : d.reducedDigits = 0 := by
  rw [reducedDigits, zero, Int.sign_zero, zero_mul]

private theorem reducedDigits_mul (d : Decimal) : d.reducedDigits * 10 ^ d.trailingZeros = d.digits := by
  have whole : ((stripZeros d.digits.natAbs).1 : Int) * 10 ^ d.trailingZeros = d.digits.natAbs := by
    exact_mod_cast stripZeros_fst_mul_pow d.digits.natAbs
  rw [reducedDigits, mul_assoc, whole]
  exact Int.sign_mul_natAbs d.digits

theorem reducedDigits_mod {d : Decimal} (nonzero : d.digits ≠ 0) : d.reducedDigits % 10 ≠ 0 := by
  have indivisible := stripZeros_fst_mod (Int.natAbs_ne_zero.mpr nonzero)
  rw [reducedDigits]
  rcases lt_or_gt_of_ne nonzero with negative | positive
  · rw [Int.sign_eq_neg_one_of_neg negative]
    omega
  · rw [Int.sign_eq_one_of_pos positive]
    omega

theorem reducedDigits_between (d : Decimal) :
    0 ≤ d.reducedDigits ∧ d.reducedDigits ≤ d.digits ∨ d.digits ≤ d.reducedDigits ∧ d.reducedDigits < 0 := by
  have whole := reducedDigits_mul d
  have power : (1 : Int) ≤ 10 ^ d.trailingZeros := one_le_pow₀ (by decide)
  rw [← whole]
  rcases lt_or_ge d.reducedDigits 0 with negative | nonnegative
  · exact .inr ⟨by nlinarith, negative⟩
  · exact .inl ⟨nonnegative, by nlinarith⟩

theorem value_eq_reduced (d : Decimal) : d.value = d.reducedDigits * 10 ^ (-d.reducedScale) := by
  have digits : (d.digits : ℚ) = d.reducedDigits * 10 ^ d.trailingZeros := by exact_mod_cast (reducedDigits_mul d).symm
  rw [value, digits, mul_assoc, ← zpow_natCast, ← zpow_add₀ (by norm_num), reducedScale]
  congr 2
  ring

theorem toInt_ofInt_reducedScale {d : Decimal} (fits : d.ScaleFits) :
    (BitVec.ofInt 64 d.reducedScale).toInt = d.reducedScale := by
  have most := BitVec.toInt_lt (x := d.scale)
  change -2 ^ 63 ≤ d.reducedScale at fits
  rw [BitVec.toInt_ofInt]
  apply Int.bmod_eq_of_le
  · norm_num at fits ⊢
    omega
  · norm_num [reducedScale] at most ⊢
    omega

theorem lower_eq_iff {d : Decimal} {scale : BitVec 64} :
    lower d.scale d.trailingZeros = some scale ↔ d.ScaleFits ∧ BitVec.ofInt 64 d.reducedScale = scale := by
  have least : (BitVec.intMin 64).toInt = -2 ^ 63 := by decide
  rw [lower, least, Option.ite_none_right_eq_some, Option.some.injEq]
  rfl

theorem normal_of_zero {d : Decimal} (zero : d.digits = 0) : d.normal = some ⟨0, 0⟩ := by simp [normal, zero]

theorem normal_of_ne_zero {d : Decimal} (nonzero : d.digits ≠ 0) :
    d.normal = (lower d.scale d.trailingZeros).map fun scale => ⟨d.reducedDigits, scale⟩ := by
  rw [normal, if_neg nonzero]
  rfl

theorem normal_of_fits {d : Decimal} (nonzero : d.digits ≠ 0) (fits : d.ScaleFits) :
    d.normal = some ⟨d.reducedDigits, BitVec.ofInt 64 d.reducedScale⟩ := by
  rw [normal_of_ne_zero nonzero, lower_eq_iff.mpr ⟨fits, rfl⟩, Option.map_some]

theorem scaleFits_of_trailingZeros {d : Decimal} (none : d.trailingZeros = 0) : d.ScaleFits := by
  have least := BitVec.le_toInt d.scale
  rw [ScaleFits, none]
  norm_num at least ⊢
  exact least

theorem scaleFits_of_isNormal {d : Decimal} (normal : d.IsNormal) : d.ScaleFits :=
  scaleFits_of_trailingZeros (trailingZeros_of_isNormal normal)

/-- There is no normal form exactly if the scale has no room for the trailing zeros. -/
theorem normal_eq_none_iff (d : Decimal) : d.normal = none ↔ ¬d.ScaleFits := by
  by_cases zero : d.digits = 0
  · simp [normal_of_zero zero, scaleFits_of_trailingZeros (trailingZeros_of_zero zero)]
  by_cases fits : d.ScaleFits
  · simp [normal_of_fits zero fits, fits]
  · have lowered : lower d.scale d.trailingZeros = none :=
      Option.eq_none_iff_forall_ne_some.mpr fun scale lowered => fits (lower_eq_iff.mp lowered).1
    simp [normal_of_ne_zero zero, lowered, fits]

theorem exists_normal {d : Decimal} (fits : d.ScaleFits) : ∃ n, d.normal = some n :=
  Option.ne_none_iff_exists'.mp fun none => (normal_eq_none_iff d).mp none fits

section Normal

variable {d n : Decimal} (normal : d.normal = some n)
include normal

theorem scaleFits_of_normal : d.ScaleFits := by
  by_contra unfit
  rw [(normal_eq_none_iff d).mpr unfit] at normal
  cases normal

theorem digits_of_normal : n.digits = d.reducedDigits := by
  by_cases zero : d.digits = 0
  · rw [normal_of_zero zero] at normal
    cases normal
    exact (reducedDigits_of_zero zero).symm
  · rw [normal_of_fits zero (scaleFits_of_normal normal)] at normal
    cases normal
    rfl

theorem value_of_normal : n.value = d.value := by
  by_cases zero : d.digits = 0
  · rw [normal_of_zero zero] at normal
    cases normal
    rw [(value_eq_zero_iff d).mpr zero, (value_eq_zero_iff _).mpr rfl]
  · have fits := scaleFits_of_normal normal
    rw [normal_of_fits zero fits] at normal
    cases normal
    rw [value_eq_reduced d, value, toInt_ofInt_reducedScale fits]

theorem isNormal_of_normal : n.IsNormal := by
  by_cases zero : d.digits = 0
  · rw [normal_of_zero zero] at normal
    cases normal
    exact .inl ⟨rfl, rfl⟩
  · refine .inr ?_
    rw [digits_of_normal normal]
    exact reducedDigits_mod zero

end Normal

/-- Put into normal form if it has one, a decimal keeps its number. -/
theorem value_getD_normal (d : Decimal) : (d.normal.getD d).value = d.value := by
  cases normal : d.normal with
  | none => rfl
  | some n => exact value_of_normal normal

theorem normal_of_isNormal {d : Decimal} (normal : d.IsNormal) : d.normal = some d := by
  have fits := scaleFits_of_isNormal normal
  have none := trailingZeros_of_isNormal normal
  by_cases zero : d.digits = 0
  · rw [normal_of_zero zero]
    rcases normal with ⟨-, scale⟩ | indivisible
    · rw [← zero, ← scale]
    · rw [zero] at indivisible
      exact absurd rfl indivisible
  · have digits := reducedDigits_mul d
    rw [none, pow_zero, mul_one] at digits
    have scale : BitVec.ofInt 64 d.reducedScale = d.scale := by
      rw [← BitVec.toInt_inj, toInt_ofInt_reducedScale fits, reducedScale, none, Int.natCast_zero, sub_zero]
    rw [normal_of_fits zero fits, digits, scale]

/-- Of two powers of ten that make one number of integers, the one with an integer that ten does not divide is
the greater. -/
private theorem exponent_le {m n s t : ℤ} (indivisible : n % 10 ≠ 0) (same : (m : ℚ) * 10 ^ s = n * 10 ^ t) :
    s ≤ t := by
  have ten : (10 : ℚ) ≠ 0 := by norm_num
  by_contra less
  obtain ⟨extra, gap⟩ : ∃ extra : Nat, s - t = (extra + 1 : Nat) := ⟨(s - t - 1).toNat, by omega⟩
  have digits : m * 10 ^ (extra + 1) = n := by
    have scaled : (m : ℚ) * 10 ^ (extra + 1) = n := by
      rw [← zpow_natCast, ← gap, zpow_sub₀ ten, ← mul_div_assoc, same]
      exact mul_div_cancel_right₀ _ (ten_zpow_pos t).ne'
    exact_mod_cast scaled
  rw [pow_succ, ← mul_assoc] at digits
  omega

/-- A number other than zero is in one way an integer that ten does not divide and a power of ten. -/
theorem digits_exponent_unique {m n s t : ℤ} (first : m % 10 ≠ 0) (second : n % 10 ≠ 0)
    (same : (m : ℚ) * 10 ^ s = n * 10 ^ t) : m = n ∧ s = t := by
  obtain rfl : s = t := Int.le_antisymm (exponent_le second same) (exponent_le first same.symm)
  exact ⟨Int.cast_injective (mul_right_cancel₀ (ten_zpow_pos s).ne' same), rfl⟩

/-- Whether there is room depends on the number alone. -/
theorem scaleFits_congr {a b : Decimal} (same : a.value = b.value) (fits : a.ScaleFits) : b.ScaleFits := by
  by_cases zero : b.digits = 0
  · exact scaleFits_of_trailingZeros (trailingZeros_of_zero zero)
  · have nonzero : a.digits ≠ 0 := by rwa [Ne, ← value_eq_zero_iff, same, value_eq_zero_iff]
    rw [value_eq_reduced, value_eq_reduced b] at same
    obtain ⟨-, scales⟩ := digits_exponent_unique (reducedDigits_mod nonzero) (reducedDigits_mod zero) same
    change -2 ^ 63 ≤ b.reducedScale
    rwa [← neg_inj.mp scales]

theorem IsNormal.mod_ne_zero {d : Decimal} (normal : d.IsNormal) (nonzero : d.digits ≠ 0) : d.digits % 10 ≠ 0 :=
  normal.resolve_left fun zero => nonzero zero.1

theorem eq_of_value {a b : Decimal} (first : a.IsNormal) (second : b.IsNormal) (same : a.value = b.value) :
    a = b := by
  have zeros : a.digits = 0 ↔ b.digits = 0 := by rw [← value_eq_zero_iff, ← value_eq_zero_iff, same]
  by_cases zero : a.digits = 0
  · have normalA := normal_of_isNormal first
    rw [normal_of_zero zero, ← normal_of_zero (zeros.mp zero), normal_of_isNormal second] at normalA
    exact (Option.some.inj normalA).symm
  · obtain ⟨digits, scales⟩ := digits_exponent_unique (first.mod_ne_zero zero)
      (second.mod_ne_zero fun none => zero (zeros.mpr none)) same
    exact (eq_iff a b).mpr ⟨digits, BitVec.eq_of_toInt_eq (neg_inj.mp scales)⟩

/-- Decimals have one normal form exactly if they stand for one number. -/
theorem normal_eq_iff {a b m n : Decimal} (first : a.normal = some m) (second : b.normal = some n) :
    m = n ↔ a.value = b.value := by
  constructor
  · rintro rfl
    rw [← value_of_normal first, ← value_of_normal second]
  · intro same
    refine eq_of_value (isNormal_of_normal first) (isNormal_of_normal second) ?_
    rw [value_of_normal first, value_of_normal second, same]

end TypedWire.Decimal
