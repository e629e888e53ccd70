import ThreeAddress.Constant
import ThreeAddress.Proofs.Decimal.Reading
import ThreeAddress.Proofs.Text.Unquote
/-!
# Different constants have different texts

The kind of a constant can be read from its text (`textKind_render`), and within each kind the text is read back to the
value: an integer by `readInt`, a text character by character, and a double as the one that its decimal rounds to
(`Double.index_eq_of_sizeChars`). Only the NaNs share a text.
-/
namespace ThreeAddress

/-! ## Doubles -/

namespace Double

theorem index_of_isZero {x : Double} (h : x.isZero = true) : x.index = 0 := by
  simp only [isZero, Bool.and_eq_true, beq_iff_eq, exponentField_eq, fraction_eq] at h
  omega

theorem index_of_isInfinite {x : Double} (h : x.isInfinite = true) : x.index = 2047 * 2 ^ 52 := by
  simp only [isInfinite, Bool.and_eq_true, beq_iff_eq, exponentField_eq, fraction_eq] at h
  omega

/-- What is written for a finite double is a decimal that reads back as it. -/
theorem exists_decimal {x : Double} (h : x.isInfinite = false) :
    ∃ d : Decimal, x.sizeChars = d.layout ∧ d.readsAs x = true := by
  cases hzero : x.isZero with
  | true =>
    have hreads : RoundsTo (Decimal.quarters ⟨0, 0⟩) 0 := by
      simp [RoundsTo, Decimal.quarters, Decimal.value, lowerEnd, units]
    refine ⟨⟨0, 0⟩, ?_, ?_⟩
    · simp only [sizeChars, h, hzero]
      rfl
    · rwa [Decimal.readsAs_iff, index_of_isZero hzero]
  | false => exact ⟨Decimal.shortest x, by simp [sizeChars, h, hzero], Decimal.readsAs_shortest x⟩

theorem mem_sizeChars_iff_isInfinite {x : Double} : 'I' ∈ x.sizeChars ↔ x.isInfinite = true := by
  constructor
  · intro h
    rcases mem_sizeChars h with h | ⟨h, -⟩
    · exact absurd h (by decide)
    · exact h
  · intro h
    simp [sizeChars, h]

theorem index_eq_of_sizeChars {x y : Double} (h : x.sizeChars = y.sizeChars) : x.index = y.index := by
  have hinf : x.isInfinite = y.isInfinite := by
    rw [Bool.eq_iff_iff, ← mem_sizeChars_iff_isInfinite, h, mem_sizeChars_iff_isInfinite]
  cases hx : x.isInfinite with
  | true => rw [index_of_isInfinite hx, index_of_isInfinite (hinf ▸ hx)]
  | false =>
    obtain ⟨d, hd, hdx⟩ := exists_decimal hx
    obtain ⟨e, he, hey⟩ := exists_decimal (hinf ▸ hx)
    have hvalue : d.value = e.value := by
      rw [← Decimal.readDecimal_layout, ← Decimal.readDecimal_layout, ← hd, ← he, h]
    have hquarters : d.quarters = e.quarters := by rw [Decimal.quarters, hvalue, Decimal.quarters]
    rw [Decimal.readsAs_iff, hquarters] at hdx
    exact hdx.unique (Decimal.readsAs_iff.1 hey)

theorem head_eq_sign_iff {x : Double} : (x.signChars ++ x.sizeChars).head? = some '-' ↔ x.isNegative = true := by
  unfold signChars
  split
  · simp_all
  · simp_all [x.head_sizeChars_ne_sign]

theorem eq_of_chars {x y : Double} (h : x.signChars ++ x.sizeChars = y.signChars ++ y.sizeChars) : x = y := by
  have hsign : x.isNegative = y.isNegative := by
    rw [Bool.eq_iff_iff, ← head_eq_sign_iff, h, head_eq_sign_iff]
  have hchars : x.signChars = y.signChars := by rw [signChars, hsign, signChars]
  exact eq_of_index (index_eq_of_sizeChars (List.append_cancel_left (hchars ▸ h))) hsign

theorem mem_render_iff_isNaN {x : Double} : 'a' ∈ x.render.toList ↔ x.isNaN = true := by
  rw [toList_render]
  cases x.isNaN with
  | true => simp
  | false =>
    have hsign : 'a' ∉ x.signChars := by
      unfold signChars
      split <;> decide
    have hsize : 'a' ∉ x.sizeChars := by
      intro h
      rcases mem_sizeChars h with h | ⟨-, h⟩ <;> exact absurd h (by decide)
    simp [hsign, hsize]

theorem isNaN_eq_of_render {x y : Double} (h : x.render = y.render) : x.isNaN = y.isNaN := by
  rw [Bool.eq_iff_iff, ← mem_render_iff_isNaN, h, mem_render_iff_isNaN]

theorem eq_of_render {x y : Double} (h : x.render = y.render) (hx : x.isNaN = false) : x = y := by
  have hlist := congrArg String.toList h
  rw [toList_render, toList_render, ← isNaN_eq_of_render h, hx] at hlist
  exact eq_of_chars hlist

end Double

/-! ## Kinds -/

inductive Constant.Kind where
  | int
  | double
  | str
  | logical
  | null
deriving DecidableEq, Repr

def Constant.kind : Constant → Constant.Kind
  | .int _ => .int
  | .double _ => .double
  | .str _ => .str
  | .logical _ => .logical
  | .null => .null

/-- The kind of constant that has a given text. -/
def textKind (cs : List Char) : Constant.Kind :=
  if cs.all fun c => c.isDigit || c = '-' then .int
  else if cs.all Double.isDoubleChar then .double
  else if cs.head? = some '"' then .str
  else if cs.head? = some 'N' then .null
  else .logical

namespace Constant

theorem textKind_render (a : Constant) : textKind a.render.toList = a.kind := by
  cases a with
  | int n =>
    have hint : (toString n.toInt).toList.all (fun c => c.isDigit || c = '-') = true := by
      rw [List.all_eq_true]
      intro c hc
      simpa using isDigit_or_sign_of_mem_int hc
    rw [render, textKind, if_pos hint, kind]
  | double x =>
    have hint : ¬ x.render.toList.all (fun c => c.isDigit || c = '-') = true := by
      obtain ⟨c, hc, hnot⟩ := x.exists_mem_render
      intro h
      exact hnot (by simpa using List.all_eq_true.1 h c hc)
    have hdouble : x.render.toList.all Double.isDoubleChar = true :=
      List.all_eq_true.2 fun _ => Double.isDoubleChar_of_mem_render
    rw [render, textKind, if_neg hint, if_pos hdouble, kind]
  | str text => simp [render, Text.quote, textKind, kind, Double.isDoubleChar, isNumeralChar]
  | logical value => cases value <;> decide
  | null => decide

def isNaN : Constant → Bool
  | .double x => x.isNaN
  | _ => false

theorem render_of_isNaN {a : Constant} (h : a.isNaN = true) : a.render = "NaN" := by
  cases a with
  | double x => exact if_pos h
  | int | str | logical | null => cases h

/-- Two constants have one text only if they are the same, bit by bit, or are both NaN. In particular their texts tell
constants of different kinds apart, integers from doubles among them. -/
theorem render_eq_iff (a b : Constant) : a.render = b.render ↔ a = b ∨ a.isNaN = true ∧ b.isNaN = true := by
  constructor
  · intro h
    have hkind : a.kind = b.kind := by rw [← textKind_render, h, textKind_render]
    match a, b, hkind, h with
    | .int m, .int n, _, h =>
      have hread : readInt (toString m.toInt).toList = readInt (toString n.toInt).toList :=
        congrArg (fun text => readInt text.toList) h
      rw [readInt_toString, readInt_toString] at hread
      exact .inl (congrArg int (Int64.toInt_inj.1 hread))
    | .double x, .double y, _, h =>
      cases hx : x.isNaN with
      | true => exact .inr ⟨hx, (Double.isNaN_eq_of_render h).symm.trans hx⟩
      | false => exact .inl (congrArg double (Double.eq_of_render h hx))
    | .str s, .str t, _, h => exact .inl (congrArg str (Text.quote_injective h))
    | .logical u, .logical v, _, h =>
      revert h
      cases u <;> cases v <;> decide
    | .null, .null, _, _ => exact .inl rfl
  · rintro (rfl | ⟨ha, hb⟩)
    · rfl
    · rw [render_of_isNaN ha, render_of_isNaN hb]

end Constant

end ThreeAddress
