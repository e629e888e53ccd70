import ThreeAddress.Proofs.Decimal.Characters
import ThreeAddress.Proofs.Decimal.Rounding
/-!
# Reading numbers

Readers for the texts of integers and of decimals. Both notations of a decimal, with and without an exponent, are read
as its value (`readDecimal_layout`).
-/
namespace ThreeAddress

/-! ## Integers -/

def readInt : List Char → ℤ
  | '-' :: ds => -Nat.ofDigitChars 10 ds 0
  | ds => Nat.ofDigitChars 10 ds 0

theorem readInt_of_isDigit {ds : List Char} (h : ∀ c ∈ ds, c.isDigit = true) :
    readInt ds = Nat.ofDigitChars 10 ds 0 := by
  unfold readInt
  split
  · exact absurd (h '-' (by simp)) (by decide)
  · rfl

theorem readInt_toString (n : ℤ) : readInt (toString n).toList = n := by
  rw [toList_int]
  split
  · rw [readInt_of_isDigit fun _ => isDigit_of_mem_toDigits, Nat.ofDigitChars_ten_toDigits]
    omega
  · rw [readInt, Nat.ofDigitChars_ten_toDigits]
    omega

/-! ## Decimals -/

/-- What stands before the first `c` and what stands after it. -/
def cutAt (c : Char) : List Char → List Char × List Char
  | [] => ([], [])
  | a :: cs => if a = c then ([], cs) else (a :: (cutAt c cs).1, (cutAt c cs).2)

theorem cutAt_append {c : Char} {cs : List Char} (h : c ∉ cs) (ds : List Char) :
    cutAt c (cs ++ c :: ds) = (cs, ds) := by
  induction cs with
  | nil => simp [cutAt]
  | cons a cs ih =>
    obtain ⟨hne, h⟩ := not_or.1 (mt List.mem_cons.2 h)
    simp [cutAt, Ne.symm hne, ih h]

theorem cutAt_of_not_mem {c : Char} {cs : List Char} (h : c ∉ cs) : cutAt c cs = (cs, []) := by
  induction cs with
  | nil => rfl
  | cons a cs ih =>
    obtain ⟨hne, h⟩ := not_or.1 (mt List.mem_cons.2 h)
    simp [cutAt, Ne.symm hne, ih h]

/-- Reads digits with or without a point. -/
def readPoint (cs : List Char) : ℚ :=
  let (whole, fraction) := cutAt '.' cs
  Nat.ofDigitChars 10 (whole ++ fraction) 0 * 10 ^ (-fraction.length : ℤ)

def readDecimal (cs : List Char) : ℚ :=
  let (mantissa, exponent) := cutAt 'e' cs
  readPoint mantissa * 10 ^ readInt exponent

theorem readDecimal_of_not_mem {cs : List Char} (h : 'e' ∉ cs) : readDecimal cs = readPoint cs := by
  simp [readDecimal, cutAt_of_not_mem h, readInt]

theorem readDecimal_exponent {cs : List Char} (h : 'e' ∉ cs) (n : ℤ) :
    readDecimal (cs ++ 'e' :: (toString n).toList) = readPoint cs * 10 ^ n := by
  simp only [readDecimal, cutAt_append h, readInt_toString]

theorem readPoint_append {cs : List Char} (h : '.' ∉ cs) (ds : List Char) :
    readPoint (cs ++ '.' :: ds) = Nat.ofDigitChars 10 (cs ++ ds) 0 * 10 ^ (-ds.length : ℤ) := by
  simp [readPoint, cutAt_append h]

theorem readPoint_of_not_mem {cs : List Char} (h : '.' ∉ cs) : readPoint cs = Nat.ofDigitChars 10 cs 0 := by
  simp [readPoint, cutAt_of_not_mem h]

theorem ofDigitChars_append_zeros (ds : List Char) (k : ℕ) :
    Nat.ofDigitChars 10 (ds ++ List.replicate k '0') 0 = Nat.ofDigitChars 10 ds 0 * 10 ^ k := by
  rw [Nat.ofDigitChars_append, Nat.ofDigitChars_replicate_zero, Nat.mul_comm]

theorem ofDigitChars_zeros_append (k : ℕ) (ds : List Char) :
    Nat.ofDigitChars 10 (List.replicate k '0' ++ ds) 0 = Nat.ofDigitChars 10 ds 0 := by
  rw [Nat.ofDigitChars_append, Nat.ofDigitChars_replicate_zero, Nat.mul_zero]

namespace Decimal

/-- The number written with the digits `ds`, of which the first has power of ten `e`. -/
def valueAt (ds : List Char) (e : ℤ) : ℚ := Nat.ofDigitChars 10 ds 0 * 10 ^ (e + 1 - ds.length)

theorem mul_pow_eq_valueAt {ds : List Char} {k : ℕ} {j e : ℤ} (h : k + j = e + 1 - ds.length) :
    ((Nat.ofDigitChars 10 ds 0 * 10 ^ k : ℕ) : ℚ) * 10 ^ j = valueAt ds e := by
  rw [valueAt, ← h, zpow_add₀ (by norm_num), zpow_natCast]
  push_cast
  ring

theorem exists_toDigits_eq (d : Decimal) :
    ∃ k, Nat.toDigits 10 d.digits = d.significantDigits ++ List.replicate k '0' := by
  have hsplit := congrArg List.reverse (List.takeWhile_append_dropWhile (l := (Nat.toDigits 10 d.digits).reverse)
    (p := (· = '0')))
  rw [List.reverse_append, List.reverse_reverse] at hsplit
  refine ⟨_, hsplit.symm.trans (congrArg _ (List.eq_replicate_length.2 fun c hc => ?_))⟩
  simpa using List.all_eq_true.1 List.all_takeWhile c (List.mem_reverse.1 hc)

theorem value_eq (d : Decimal) : d.value = valueAt d.significantDigits d.magnitude := by
  obtain ⟨k, hk⟩ := d.exists_toDigits_eq
  have hdigits : d.digits = Nat.ofDigitChars 10 d.significantDigits 0 * 10 ^ k := by
    rw [← ofDigitChars_append_zeros, ← hk, Nat.ofDigitChars_ten_toDigits]
  have hexp : d.magnitude + 1 - d.significantDigits.length = k + d.exponent := by
    simp only [magnitude, hk, List.length_append, List.length_replicate]
    omega
  rw [value, hdigits, mul_pow_eq_valueAt hexp.symm]

section Digits

variable {ds : List Char} (hds : ∀ c ∈ ds, c.isDigit = true)

include hds

theorem not_mem_digits {c : Char} (hc : c.isDigit = false) : c ∉ ds := fun h => by simp [hds c h] at hc

theorem exponent_not_mem_split (k : ℕ) : 'e' ∉ ds.take k ++ '.' :: ds.drop k := by
  have hexp := not_mem_digits hds (c := 'e') rfl
  simp only [List.mem_append, List.mem_cons, not_or]
  exact ⟨mt List.mem_of_mem_take hexp, by decide, mt List.mem_of_mem_drop hexp⟩

theorem readPoint_split (k : ℕ) :
    readPoint (ds.take k ++ '.' :: ds.drop k) = Nat.ofDigitChars 10 ds 0 * 10 ^ (-(ds.length - k : ℕ) : ℤ) := by
  have hpoint := not_mem_digits hds (c := '.') rfl
  rw [readPoint_append (mt List.mem_of_mem_take hpoint), List.take_append_drop, List.length_drop]

theorem readDecimal_positional (e : ℤ) : readDecimal (positional ds e) = valueAt ds e := by
  have hpoint := not_mem_digits hds (c := '.') rfl
  have hexp := not_mem_digits hds (c := 'e') rfl
  unfold positional
  split
  next he =>
    obtain ⟨k, hk⟩ : ∃ k : ℕ, (-e - 1).toNat = k := ⟨_, rfl⟩
    have hzeros : ['0'] ++ (List.replicate k '0' ++ ds) = List.replicate (k + 1) '0' ++ ds := rfl
    rw [hk, readDecimal_of_not_mem (by simp [hexp]), ← List.singleton_append, readPoint_append (by simp), hzeros,
      ofDigitChars_zeros_append, valueAt]
    congr 2
    simp only [List.length_append, List.length_replicate]
    omega
  next he =>
    obtain ⟨k, rfl⟩ := Int.eq_ofNat_of_zero_le (not_lt.1 he)
    simp only [Int.toNat_natCast]
    split
    next hlen =>
      have hzeros : ds ++ List.replicate (k + 1 - ds.length) '0' ++ ['0'] =
          ds ++ List.replicate (k + 1 - ds.length + 1) '0' := by
        rw [List.replicate_succ', List.append_assoc]
      rw [List.take_of_length_le hlen, readDecimal_of_not_mem (by simp [hexp]), readPoint_append (by simp [hpoint]),
        hzeros, ofDigitChars_append_zeros]
      apply mul_pow_eq_valueAt
      simp only [List.length_singleton]
      omega
    next hlen =>
      have hnone : k + 1 - ds.length = 0 := by omega
      rw [hnone, List.replicate_zero, List.append_nil, readDecimal_of_not_mem (exponent_not_mem_split hds _),
        readPoint_split hds, valueAt]
      congr 2
      omega

theorem readDecimal_exponential (e : ℤ) : readDecimal (exponential ds e) = valueAt ds e := by
  simp only [exponential]
  split
  next hlen =>
    have hpoint := not_mem_digits hds (c := '.') rfl
    have hexp := not_mem_digits hds (c := 'e') rfl
    rw [List.take_of_length_le hlen, List.append_nil, readDecimal_exponent hexp, readPoint_of_not_mem hpoint, valueAt]
    -- without digits both sides are 0
    cases ds with
    | nil => simp
    | cons c ds => simp_all
  next hlen =>
    rw [readDecimal_exponent (exponent_not_mem_split hds 1), readPoint_split hds, mul_assoc,
      ← zpow_add₀ (by norm_num), valueAt]
    congr 2
    omega

end Digits

theorem readDecimal_layout (d : Decimal) : readDecimal d.layout = d.value := by
  have hds : ∀ c ∈ d.significantDigits, c.isDigit = true := fun _ => isDigit_of_mem_significantDigits
  rw [value_eq, layout]
  split
  · exact readDecimal_positional hds _
  · exact readDecimal_exponential hds _

end Decimal

end ThreeAddress
