import ThreeAddress.Decimal.Layout
/-!
# Characters of numbers

The text of an integer has digits and perhaps a sign. The text of a decimal has a point or an exponent as well
(`point_or_exponent_mem_layout`), and nothing but these. The text of a double is that of a decimal behind a sign, or one
of the words for what is no decimal (`Double.toList_render`).
-/
namespace ThreeAddress

def isNumeralChar (c : Char) : Bool := c.isDigit || c = '.' || c = 'e' || c = '-'

theorem isNumeralChar_of_isDigit {c : Char} (h : c.isDigit = true) : isNumeralChar c = true := by
  simp [isNumeralChar, h]

theorem isDigit_of_mem_toDigits {n : Nat} {c : Char} (h : c ∈ Nat.toDigits 10 n) : c.isDigit = true :=
  Nat.isDigit_of_mem_toDigits (by decide) (by decide) h

/-! ## Integers -/

theorem toList_int (n : Int) :
    (toString n).toList = if 0 ≤ n then Nat.toDigits 10 n.toNat else '-' :: Nat.toDigits 10 (-n).toNat := by
  rw [Int.toString_eq_repr, Int.repr_eq_if]
  split <;> simp [Nat.repr_eq_ofList_toDigits]

theorem isDigit_or_sign_of_mem_int {n : Int} {c : Char} (h : c ∈ (toString n).toList) : c.isDigit = true ∨ c = '-' := by
  rw [toList_int] at h
  split at h
  · exact .inl (isDigit_of_mem_toDigits h)
  · rcases List.mem_cons.1 h with rfl | h
    · exact .inr rfl
    · exact .inl (isDigit_of_mem_toDigits h)

theorem isNumeralChar_of_mem_int {n : Int} {c : Char} (h : c ∈ (toString n).toList) : isNumeralChar c = true := by
  rcases isDigit_or_sign_of_mem_int h with h | rfl
  · exact isNumeralChar_of_isDigit h
  · decide

theorem toList_int_ne_nil (n : Int) : (toString n).toList ≠ [] := by
  rw [toList_int]
  split <;> simp

/-! ## Decimals -/

namespace Decimal

theorem isDigit_of_mem_significantDigits {d : Decimal} {c : Char} (h : c ∈ d.significantDigits) : c.isDigit = true := by
  rw [significantDigits, List.mem_reverse] at h
  exact isDigit_of_mem_toDigits (List.mem_reverse.1 (List.dropWhile_subset _ h))

theorem isNumeralChar_of_mem_positional {ds : List Char} (hds : ∀ c ∈ ds, c.isDigit = true) {e : Int} {c : Char}
    (h : c ∈ positional ds e) : isNumeralChar c = true := by
  have hzero : isNumeralChar '0' = true := by decide
  have hpoint : isNumeralChar '.' = true := by decide
  unfold positional at h
  grind [List.mem_of_mem_take, List.mem_of_mem_drop, isNumeralChar_of_isDigit]

theorem isNumeralChar_of_mem_exponential {ds : List Char} (hds : ∀ c ∈ ds, c.isDigit = true) {e : Int} {c : Char}
    (h : c ∈ exponential ds e) : isNumeralChar c = true := by
  have hpoint : isNumeralChar '.' = true := by decide
  have hexp : isNumeralChar 'e' = true := by decide
  unfold exponential at h
  grind [List.mem_of_mem_take, List.mem_of_mem_drop, isNumeralChar_of_isDigit, isNumeralChar_of_mem_int]

theorem isNumeralChar_of_mem_layout {d : Decimal} {c : Char} (h : c ∈ d.layout) : isNumeralChar c = true := by
  unfold layout at h
  split at h
  · exact isNumeralChar_of_mem_positional (fun _ => isDigit_of_mem_significantDigits) h
  · exact isNumeralChar_of_mem_exponential (fun _ => isDigit_of_mem_significantDigits) h

theorem point_or_exponent_mem_layout (d : Decimal) : '.' ∈ d.layout ∨ 'e' ∈ d.layout := by
  unfold layout positional exponential
  split
  · split <;> simp
  · simp

theorem head_append_ne {c : Char} {cs ds : List Char} (hcs : cs.head? ≠ some c) (hds : ds.head? ≠ some c) :
    (cs ++ ds).head? ≠ some c := by
  cases cs with
  | nil => exact hds
  | cons a cs => exact hcs

theorem head_layout_ne_sign (d : Decimal) : d.layout.head? ≠ some '-' := by
  have hds : ∀ k, (d.significantDigits.take k).head? ≠ some '-' := by
    intro k h
    exact absurd (isDigit_of_mem_significantDigits (List.mem_of_mem_take (List.mem_of_head? h))) (by decide)
  have hzeros : ∀ k, (List.replicate k '0').head? ≠ some '-' := by
    intro k h
    exact absurd (List.eq_of_mem_replicate (List.mem_of_head? h)) (by decide)
  unfold layout positional exponential
  split
  · split
    · simp
    · exact head_append_ne (head_append_ne (hds _) (hzeros _)) (by simp)
  · exact head_append_ne (head_append_ne (hds 1) (by split <;> simp)) (by simp)

end Decimal

/-! ## Doubles -/

namespace Double

def signChars (x : Double) : List Char := if x.isNegative then ['-'] else []

/-- The text without its sign. -/
def sizeChars (x : Double) : List Char :=
  if x.isInfinite then ['I', 'n', 'f'] else if x.isZero then ['0', '.', '0'] else (Decimal.shortest x).layout

theorem toList_render (x : Double) :
    x.render.toList = if x.isNaN then ['N', 'a', 'N'] else x.signChars ++ x.sizeChars := by
  unfold render signChars sizeChars
  split
  · rfl
  · rw [String.toList_append]
    congr 1
    · split <;> rfl
    · split
      · rfl
      · split
        · rfl
        · exact String.toList_ofList

theorem head_sizeChars_ne_sign (x : Double) : x.sizeChars.head? ≠ some '-' := by
  unfold sizeChars
  split
  · decide
  · split
    · decide
    · exact Decimal.head_layout_ne_sign _

theorem mem_sizeChars {x : Double} {c : Char} (h : c ∈ x.sizeChars) :
    isNumeralChar c = true ∨ x.isInfinite = true ∧ c ∈ ['I', 'n', 'f'] := by
  have hzero : ['0', '.', '0'].all isNumeralChar = true := by decide
  unfold sizeChars at h
  split at h
  next hinf => exact .inr ⟨hinf, h⟩
  · split at h
    · exact .inl (List.all_eq_true.1 hzero c h)
    · exact .inl (Decimal.isNumeralChar_of_mem_layout h)

def isDoubleChar (c : Char) : Bool := isNumeralChar c || ['N', 'a', 'I', 'n', 'f'].contains c

theorem isDoubleChar_of_mem_sizeChars {x : Double} {c : Char} (h : c ∈ x.sizeChars) : isDoubleChar c = true := by
  have hinf : ['I', 'n', 'f'].all isDoubleChar = true := by decide
  rcases mem_sizeChars h with h | ⟨-, h⟩
  · simp [isDoubleChar, h]
  · exact List.all_eq_true.1 hinf c h

theorem isDoubleChar_of_mem_render {x : Double} {c : Char} (h : c ∈ x.render.toList) : isDoubleChar c = true := by
  have hnan : ['N', 'a', 'N'].all isDoubleChar = true := by decide
  have hsign : x.signChars.all isDoubleChar = true := by
    unfold signChars
    split <;> decide
  rw [toList_render] at h
  split at h
  · exact List.all_eq_true.1 hnan c h
  · rcases List.mem_append.1 h with h | h
    · exact List.all_eq_true.1 hsign c h
    · exact isDoubleChar_of_mem_sizeChars h

/-- No double has the text of an integer. -/
theorem exists_mem_render (x : Double) : ∃ c ∈ x.render.toList, ¬ (c.isDigit = true ∨ c = '-') := by
  have hpoint : ¬ ('.'.isDigit = true ∨ '.' = '-') := by decide
  have hexp : ¬ ('e'.isDigit = true ∨ 'e' = '-') := by decide
  rw [toList_render]
  split
  · exact ⟨'N', by decide, by decide⟩
  · unfold sizeChars
    split
    · exact ⟨'I', by simp, by decide⟩
    · split
      · exact ⟨'.', by simp, hpoint⟩
      · rcases (Decimal.shortest x).point_or_exponent_mem_layout with h | h
        · exact ⟨'.', by simp [h], hpoint⟩
        · exact ⟨'e', by simp [h], hexp⟩

theorem toList_render_ne_nil (x : Double) : x.render.toList ≠ [] := by
  obtain ⟨c, hc, -⟩ := x.exists_mem_render
  exact List.ne_nil_of_mem hc

end Double

end ThreeAddress
