import Mathlib.Algebra.Order.Field.Power
import Mathlib.Data.Rat.Cast.Order
import Mathlib.Tactic.FieldSimp
import Mathlib.Tactic.Linarith
import Mathlib.Tactic.Positivity
import Mathlib.Tactic.Ring
import ThreeAddress.Decimal.Shortest
/-!
# A decimal reads back as one double

The magnitudes of doubles are numbered by their bits, and the decimals that read back as number `n` are those between
`lowerEnd n` and `upperEnd n` (`Decimal.readsAs_iff`). One interval ends where the next one begins, and the common end
belongs to the even one of the two, so no decimal reads back as two magnitudes (`RoundsTo.unique`). The decimal chosen
for a double reads back as that double (`Decimal.readsAs_shortest`).
-/
namespace ThreeAddress

namespace Decimal

/-- The number that a decimal stands for. -/
def value (d : Decimal) : ℚ := d.digits * 10 ^ d.exponent

/-- Clearing the negative powers multiplies both sides of a comparison by the same positive number. -/
theorem exists_scale (d : Decimal) (m : ℕ) (q : ℤ) :
    ∃ c : ℚ, 0 < c ∧
      ((d.digits * Nat.pow 10 d.exponent.toNat * Nat.pow 2 (-q).toNat : ℕ) : ℚ) = d.value * c ∧
      ((m * Nat.pow 2 q.toNat * Nat.pow 10 (-d.exponent).toNat : ℕ) : ℚ) = m * 2 ^ q * c := by
  have hpow (b : ℚ) (hb : b ≠ 0) (z : ℤ) : b ^ z.toNat = b ^ z * b ^ (-z).toNat := by
    rw [← zpow_natCast, ← zpow_natCast, ← zpow_add₀ hb]
    congr 1
    omega
  refine ⟨10 ^ (-d.exponent).toNat * 2 ^ (-q).toNat, by positivity, ?_, ?_⟩
  · have h := hpow 10 (by norm_num) d.exponent
    simp only [value, Nat.pow_eq, Nat.cast_mul, Nat.cast_pow, Nat.cast_ofNat, h]
    ring
  · have h := hpow 2 (by norm_num) q
    simp only [Nat.pow_eq, Nat.cast_mul, Nat.cast_pow, Nat.cast_ofNat, h]
    ring

theorem isLE_compareBinary {d : Decimal} {m : ℕ} {q : ℤ} :
    (d.compareBinary m q).isLE = true ↔ d.value ≤ m * 2 ^ q := by
  obtain ⟨c, hc, hl, hr⟩ := exists_scale d m q
  rw [compareBinary, Nat.isLE_compare, ← Nat.cast_le (α := ℚ), hl, hr, mul_le_mul_iff_left₀ hc]

theorem isGE_compareBinary {d : Decimal} {m : ℕ} {q : ℤ} :
    (d.compareBinary m q).isGE = true ↔ m * 2 ^ q ≤ d.value := by
  obtain ⟨c, hc, hl, hr⟩ := exists_scale d m q
  rw [compareBinary, Nat.isGE_compare, ← Nat.cast_le (α := ℚ), hl, hr, mul_le_mul_iff_left₀ hc]

theorem isLT_compareBinary {d : Decimal} {m : ℕ} {q : ℤ} :
    (d.compareBinary m q).isLT = true ↔ d.value < m * 2 ^ q := by
  rw [← not_le, ← isGE_compareBinary]
  cases d.compareBinary m q <;> simp

theorem isGT_compareBinary {d : Decimal} {m : ℕ} {q : ℤ} :
    (d.compareBinary m q).isGT = true ↔ m * 2 ^ q < d.value := by
  rw [← not_le, ← isLE_compareBinary]
  cases d.compareBinary m q <;> simp

end Decimal

/-! ## The magnitudes in order -/

/-- How often the spacing of magnitudes has doubled up to number `n`. -/
def binade (n : ℕ) : ℕ := n / 2 ^ 52 - 1

/-- The magnitude with number `n`, in units of its spacing. -/
def units (n : ℕ) : ℕ := if n / 2 ^ 52 = 0 then n else 2 ^ 52 + n % 2 ^ 52

/-- The least number that may round to magnitude `n`, in quarters of the least spacing. -/
def lowerEnd (n : ℕ) : ℕ := (4 * units n - if n % 2 ^ 52 = 0 ∧ 1 < n / 2 ^ 52 then 1 else 2) * 2 ^ binade n

/-- The greatest number that may round to magnitude `n`, in quarters of the least spacing. -/
def upperEnd (n : ℕ) : ℕ := (4 * units n + 2) * 2 ^ binade n

theorem lowerEnd_lt_upperEnd (n : ℕ) : lowerEnd n < upperEnd n := by
  refine Nat.mul_lt_mul_of_pos_right ?_ (by positivity)
  omega

theorem upperEnd_eq_lowerEnd (n : ℕ) : upperEnd n = lowerEnd (n + 1) := by
  have hdiv := Nat.div_add_mod n (2 ^ 52)
  by_cases hlast : n % 2 ^ 52 + 1 < 2 ^ 52
  · have hd : (n + 1) / 2 ^ 52 = n / 2 ^ 52 := by omega
    have hm : (n + 1) % 2 ^ 52 = n % 2 ^ 52 + 1 := by omega
    simp only [upperEnd, lowerEnd, binade, units, hd, hm, Nat.add_one_ne_zero, false_and, if_false]
    congr 1
    split <;> omega
  · -- the spacing doubles after the last magnitude of a binade, except after the first binade
    have hd : (n + 1) / 2 ^ 52 = n / 2 ^ 52 + 1 := by omega
    have hm : (n + 1) % 2 ^ 52 = 0 := by omega
    by_cases hfirst : n / 2 ^ 52 = 0
    · simp only [upperEnd, lowerEnd, binade, units, hd, hm, hfirst, if_true, if_false, Nat.zero_add, one_ne_zero,
        lt_irrefl, and_false]
      omega
    · obtain ⟨b, hb⟩ := Nat.exists_eq_succ_of_ne_zero hfirst
      have hn : n % 2 ^ 52 = 2 ^ 52 - 1 := by omega
      simp only [upperEnd, lowerEnd, binade, units, hd, hm, hb, hn]
      simp [pow_succ]
      omega

theorem strictMono_lowerEnd : StrictMono lowerEnd :=
  strictMono_nat_of_lt_succ fun n => upperEnd_eq_lowerEnd n ▸ lowerEnd_lt_upperEnd n

theorem units_mod_two (n : ℕ) : units n % 2 = n % 2 := by
  unfold units
  split <;> omega

/-- Whether `v`, in quarters of the least spacing, rounds to magnitude `n`, with ties to the even one. -/
def RoundsTo (v : ℚ) (n : ℕ) : Prop :=
  if n % 2 = 0 then lowerEnd n ≤ v ∧ v ≤ upperEnd n else lowerEnd n < v ∧ v < upperEnd n

theorem RoundsTo.le {v : ℚ} {n : ℕ} (h : RoundsTo v n) : lowerEnd n ≤ v ∧ v ≤ upperEnd n := by
  unfold RoundsTo at h
  split at h
  · exact h
  · exact ⟨h.1.le, h.2.le⟩

theorem RoundsTo.unique {v : ℚ} {n m : ℕ} (hn : RoundsTo v n) (hm : RoundsTo v m) : n = m := by
  wlog hlt : n < m generalizing n m
  · rcases Nat.lt_trichotomy n m with h | h | h
    · exact absurd h hlt
    · exact h
    · exact (this hm hn h).symm
  have hle : upperEnd n ≤ lowerEnd m := upperEnd_eq_lowerEnd n ▸ strictMono_lowerEnd.monotone hlt
  have hup : (upperEnd n : ℚ) ≤ lowerEnd m := by exact_mod_cast hle
  have hv : v = upperEnd n ∧ v = lowerEnd m := by
    constructor <;> linarith [hn.le.2, hm.le.1]
  -- the common end of two intervals is in both only if both numbers are even, and then they are not neighbours
  have hend : lowerEnd (n + 1) = lowerEnd m := by
    rw [← upperEnd_eq_lowerEnd]
    exact_mod_cast hv.1.symm.trans hv.2
  have hsucc : n + 1 = m := strictMono_lowerEnd.injective hend
  unfold RoundsTo at hn hm
  split at hn
  · rw [if_neg (by omega)] at hm
    exact absurd hv.2 hm.1.ne'
  · exact absurd hv.1 hn.2.ne

/-! ## Doubles -/

namespace Double

/-- The number of a double's magnitude: its bits without the sign. -/
def index (x : Double) : ℕ := x.bits.toNat % 2 ^ 63

theorem exponentField_eq (x : Double) : x.exponentField = x.index / 2 ^ 52 := by
  simp only [exponentField, index, Nat.pow_eq]
  omega

theorem fraction_eq (x : Double) : x.fraction = x.index % 2 ^ 52 := by
  simp only [fraction, index, Nat.pow_eq]
  omega

theorem significand_eq (x : Double) : x.significand = units x.index := by
  simp only [significand, units, exponentField_eq, fraction_eq, Nat.pow_eq]
  split <;> omega

theorem scale_eq (x : Double) : x.scale = binade x.index - 1074 := by
  simp only [scale, binade, exponentField_eq]
  omega

theorem narrowBelow_iff {x : Double} :
    x.narrowBelow = true ↔ x.index % 2 ^ 52 = 0 ∧ 1 < x.index / 2 ^ 52 := by
  simp [narrowBelow, exponentField_eq, fraction_eq]

theorem isNegative_iff {x : Double} : x.isNegative = true ↔ 2 ^ 63 ≤ x.bits.toNat := by
  simp only [isNegative, decide_eq_true_eq, Nat.pow_eq]

theorem eq_of_index {x y : Double} (hi : x.index = y.index) (hs : x.isNegative = y.isNegative) : x = y := by
  have hbits : x.bits.toNat = y.bits.toNat := by
    have hx := x.bits.toNat_lt
    have hy := y.bits.toNat_lt
    rw [Bool.eq_iff_iff, isNegative_iff, isNegative_iff] at hs
    simp only [index] at hi
    omega
  exact congrArg mk (UInt64.toNat_inj.1 hbits)

end Double

namespace Decimal

/-- The value of `d` in quarters of the least spacing of doubles. -/
def quarters (d : Decimal) : ℚ := d.value * 2 ^ (1076 : ℤ)

/-- A quarter of the spacing at `x`, in quarters of the least spacing. -/
theorem quarter_at (x : Double) (m : ℕ) :
    (m : ℚ) * 2 ^ (x.scale - 2) * 2 ^ (1076 : ℤ) = (m * 2 ^ binade x.index : ℕ) := by
  rw [mul_assoc, ← zpow_add₀ two_ne_zero, x.scale_eq]
  push_cast
  rw [← zpow_natCast]
  congr 2
  omega

theorem readsAs_iff {d : Decimal} {x : Double} : d.readsAs x = true ↔ RoundsTo d.quarters x.index := by
  have hle (m : ℕ) : d.value ≤ m * 2 ^ (x.scale - 2) ↔ d.quarters ≤ (m * 2 ^ binade x.index : ℕ) := by
    rw [← quarter_at, quarters, mul_le_mul_iff_left₀ (by positivity)]
  have hge (m : ℕ) : m * 2 ^ (x.scale - 2) ≤ d.value ↔ (m * 2 ^ binade x.index : ℕ) ≤ d.quarters := by
    rw [← quarter_at, quarters, mul_le_mul_iff_left₀ (by positivity)]
  have hlow : (4 * x.significand - if x.narrowBelow = true then 1 else 2) * 2 ^ binade x.index = lowerEnd x.index := by
    simp only [lowerEnd, Double.significand_eq, Double.narrowBelow_iff]
  have hhigh : (4 * x.significand + 2) * 2 ^ binade x.index = upperEnd x.index := by
    rw [upperEnd, Double.significand_eq]
  have hparity : x.significand % 2 = x.index % 2 := by rw [Double.significand_eq, units_mod_two]
  simp only [readsAs, RoundsTo, hparity]
  by_cases heven : x.index % 2 = 0
  · rw [if_pos heven, if_pos heven]
    rw [Bool.and_eq_true, isGE_compareBinary, isLE_compareBinary, hge, hle, hlow, hhigh]
  · rw [if_neg heven, if_neg heven]
    rw [Bool.and_eq_true, isGT_compareBinary, isLT_compareBinary, ← not_le, ← not_le, hge, hle, hlow, hhigh,
      not_le, not_le]

/-! ## The shortest decimal -/

theorem value_ofDouble (x : Double) : (ofDouble x).value = x.significand * 2 ^ x.scale := by
  unfold ofDouble value
  split
  next h =>
    obtain ⟨n, hn⟩ := Int.eq_ofNat_of_zero_le h
    simp [hn]
  next h =>
    obtain ⟨n, hn⟩ : ∃ n : ℕ, x.scale = -n := ⟨(-x.scale).toNat, by omega⟩
    have hten : (10 : ℚ) ^ n = 5 ^ n * 2 ^ n := by rw [← mul_pow]; norm_num
    simp only [hn, neg_neg, Int.toNat_natCast, Nat.pow_eq, Nat.cast_mul, Nat.cast_pow, Nat.cast_ofNat, zpow_neg,
      zpow_natCast, hten]
    field_simp

theorem readsAs_ofDouble (x : Double) : (ofDouble x).readsAs x = true := by
  have hq : (ofDouble x).quarters = (4 * units x.index * 2 ^ binade x.index : ℕ) := by
    rw [← Double.significand_eq, ← quarter_at, quarters, value_ofDouble, zpow_sub₀ two_ne_zero]
    congr 1
    push_cast
    ring
  rw [readsAs_iff, hq, RoundsTo, lowerEnd, upperEnd]
  have hpow : 0 < 2 ^ binade x.index := by positivity
  split
  · exact ⟨by exact_mod_cast Nat.mul_le_mul_right _ (by omega), by exact_mod_cast Nat.mul_le_mul_right _ (by omega)⟩
  next h =>
    have := units_mod_two x.index
    refine ⟨?_, ?_⟩
    · exact_mod_cast Nat.mul_lt_mul_of_pos_right (by split <;> omega) hpow
    · exact_mod_cast Nat.mul_lt_mul_of_pos_right (by omega) hpow

theorem readsAs_of_pick {x : Double} {low d : Decimal} (h : pick x low = some d) : d.readsAs x = true := by
  unfold pick at h
  grind

theorem readsAs_shortest (x : Double) : (shortest x).readsAs x = true := by
  unfold shortest
  simp only
  cases hfound : List.findSome? _ _ with
  | none => exact readsAs_ofDouble x
  | some d =>
    obtain ⟨_, -, hd⟩ := List.exists_of_findSome?_eq_some hfound
    exact readsAs_of_pick hd

end Decimal

end ThreeAddress
