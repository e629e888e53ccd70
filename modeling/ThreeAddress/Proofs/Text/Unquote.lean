import ThreeAddress.Text.Quoted
/-!
# Reading quoted texts

Every character can be read back from its escape whatever follows it (`readChar_escape`), so no two texts are quoted
alike (`quote_injective`).
-/
namespace ThreeAddress.Text

/-! ## Hexadecimal digits -/

def hexValue (c : Char) : Nat := if c.isDigit then c.toNat - 48 else c.toNat - 87

theorem hexValue_digitChar : ∀ {d : Nat}, d < 16 → hexValue d.digitChar = d := by decide

/-- Reads digits up to a closing brace, behind digits of value `n`. -/
def readHex (n : Nat) : List Char → Option (Nat × List Char)
  | [] => none
  | c :: cs => if c = '\x7d' then some (n, cs) else readHex (16 * n + hexValue c) cs

theorem readHex_digitChar {d : Nat} (h : d < 16) (n : Nat) (cs : List Char) :
    readHex n (d.digitChar :: cs) = readHex (16 * n + d) cs := by
  rw [readHex, if_neg (Nat.digitChar_ne _ (by decide)), hexValue_digitChar h]

theorem readHex_toDigits (n : Nat) (cs : List Char) : readHex 0 (Nat.toDigits 16 n ++ cs) = readHex n cs := by
  induction n using Nat.strongRecOn generalizing cs with
  | ind n ih =>
    rw [Nat.toDigits_eq_if (by decide)]
    split
    next h =>
      rw [List.singleton_append, readHex_digitChar h, Nat.mul_zero, Nat.zero_add]
    next h =>
      rw [List.append_assoc, ih (n / 16) (by omega), List.singleton_append,
        readHex_digitChar (Nat.mod_lt n (by decide)), Nat.div_add_mod]

/-! ## Characters -/

/-- The character that a backslash and `c` stand for. -/
def afterBackslash (c : Char) : Char :=
  match c with
  | '0' => '\x00'
  | 't' => '\t'
  | 'n' => '\n'
  | 'r' => '\r'
  | c => c

/-- Reads the first character of a quoted text; a quote ends the text. -/
def readChar : List Char → Option (Char × List Char)
  | [] => none
  | '"' :: _ => none
  | '\\' :: 'u' :: '\x7b' :: cs => (readHex 0 cs).map fun (n, rest) => (Char.ofNat n, rest)
  | '\\' :: c :: cs => some (afterBackslash c, cs)
  | c :: cs => some (c, cs)

theorem readChar_escape (c : Char) (cs : List Char) : readChar (escape c ++ cs) = some (c, cs) := by
  unfold escape
  split
  case h_7 hquote hback =>
    split
    · simp [readChar, readHex_toDigits, readHex]
    · unfold readChar
      split <;> simp_all
  all_goals rfl

theorem flatMap_escape_injective {cs ds : List Char}
    (h : cs.flatMap escape ++ ['"'] = ds.flatMap escape ++ ['"']) : cs = ds := by
  induction cs generalizing ds with
  | nil =>
    cases ds with
    | nil => rfl
    | cons d ds =>
      have hread := congrArg readChar h
      rw [List.flatMap_cons, List.append_assoc, readChar_escape] at hread
      cases hread
  | cons c cs ih =>
    have hread := congrArg readChar h
    rw [List.flatMap_cons, List.append_assoc, readChar_escape] at hread
    cases ds with
    | nil => cases hread
    | cons d ds =>
      rw [List.flatMap_cons, List.append_assoc, readChar_escape] at hread
      obtain ⟨rfl, hrest⟩ : c = d ∧ _ := by simpa only [Option.some.injEq, Prod.mk.injEq] using hread
      rw [ih hrest]

theorem quote_injective {s t : String} (h : quote s = quote t) : s = t := by
  have hlist := String.ofList_injective h
  exact String.toList_inj.1 (flatMap_escape_injective (List.cons.inj hlist).2)

end ThreeAddress.Text
