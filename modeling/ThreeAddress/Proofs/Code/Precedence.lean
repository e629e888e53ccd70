import ThreeAddress.Proofs.Code.Dump
/-!
# Texts read by precedence

The text of an operand is read with prefix operators that reach as far as their precedence says: `-` takes a power with
it and `!` takes sums and comparisons as well. Whether an operand stands in parentheses is decided by looking at it and
the operator above it, and on the right of an operator a prefix operator never does. So the text may end with a prefix
operator that is open to the right, and if an operator that binds tighter follows, the reader hands it a part of what
stands on its left. `keepsLeftOperand` is the condition under which this does not happen at one operator, and the tree
comes back if and only if it holds at all of them.
-/
namespace ThreeAddress.Code

open Lexer

/-- What is read from the text of an operand if prefix operators have their own precedence. -/
def readByPrecedence (cs : List Char) : Option Shape := (lex cs).bind (Reader.read UnaryOp.precedence)

namespace Operand

/-- The prefix operator that the text of an operand ends with, unless parentheses close it. -/
def lastPrefix? : Operand → Option UnaryOp
  | .unary op _ => some op
  | .binary op _ rhs => if rhs.loosensRightOf op then none else lastPrefix? rhs
  | _ => none

/-- The left operand of a binary operator stands in parentheses, or does not end with a prefix operator that is looser
than the binary one. -/
def keepsLeftOperand : Operand → Bool
  | .binary op lhs _ => lhs.loosensLeftOf op || lhs.lastPrefix?.all fun last => op.precedence ≤ last.precedence
  | _ => true

/-- An operand is settled up to its outermost operator, if that is a binary one, and up to the prefix operator it ends
with. -/
theorem le_edge_iff {level : Nat} (hlevel : level ≤ BinaryOp.pow.precedence) (o : Operand) :
    level ≤ o.edge UnaryOp.precedence ↔
      (∀ op lhs rhs, o = .binary op lhs rhs → level ≤ op.precedence) ∧ ∀ last ∈ o.lastPrefix?, level ≤ last.precedence := by
  induction o using inductionOn with
  | const | temp | var | func | element | call => simpa [edge, lastPrefix?] using hlevel
  | unary op operand _ => simp [edge, lastPrefix?]
  | binary op lhs rhs _ ihr =>
    rw [edge_binary, Nat.le_min, lastPrefix?]
    cases hloose : rhs.loosensRightOf op with
    | true => simp [hlevel]
    | false =>
      have hinner (inner : BinaryOp) (l r : Operand) (h : rhs = .binary inner l r) : op.precedence < inner.precedence := by
        subst h
        simpa [loosensRightOf] using hloose
      simp only [Bool.false_eq_true, if_false, ihr]
      constructor
      · rintro ⟨hop, -, hlast⟩
        refine ⟨?_, hlast⟩
        rintro _ _ _ ⟨⟩
        exact hop
      · rintro ⟨hop, hlast⟩
        have h := hop op lhs rhs rfl
        exact ⟨h, fun inner l r e => Nat.le_trans h (Nat.le_of_lt (hinner inner l r e)), hlast⟩

theorem keepsLeftOperand_binary_iff {op : BinaryOp} {lhs rhs : Operand} :
    (binary op lhs rhs).keepsLeftOperand = true ↔
      (lhs.loosensLeftOf op = false → op.precedence ≤ lhs.edge UnaryOp.precedence) := by
  rw [keepsLeftOperand, Bool.or_eq_true, Option.all_eq_true, le_edge_iff op.precedence_le_pow]
  simp only [decide_eq_true_eq]
  cases hloose : lhs.loosensLeftOf op with
  | true => simp
  | false =>
    -- a binary operator without parentheses is not looser
    have hinner : ∀ inner l r, lhs = .binary inner l r → op.precedence ≤ inner.precedence := by
      rintro inner l r rfl
      simpa [loosensLeftOf] using hloose
    constructor
    · rintro (h | h) _
      · cases h
      · exact ⟨hinner, h⟩
    · intro h
      exact .inr (h rfl).2

theorem isClear_precedence_iff {o : Operand} :
    o.IsClear UnaryOp.precedence ↔ ∀ sub ∈ o.walk, sub.keepsLeftOperand = true := by
  constructor
  · intro h sub hsub
    cases sub with
    | binary op lhs rhs => exact keepsLeftOperand_binary_iff.2 (h op lhs rhs hsub)
    | _ => rfl
  · intro h op lhs rhs hm
    exact keepsLeftOperand_binary_iff.1 (h _ hm)

end Operand

theorem readByPrecedence_render {o : Operand} (h : o.IsLegible) :
    readByPrecedence o.render.toList = Reader.read UnaryOp.precedence o.tokens := by
  rw [readByPrecedence, lex_of_lexes (lexes_render h), Option.bind_some]

/-- The tree of an operand with legible names and numbers comes back from its text, by the precedences of all operators,
if and only if no operand that stands on the left without parentheses ends with a prefix operator that is looser than the
operator behind it. -/
theorem readByPrecedence_render_iff {o : Operand} (h : o.IsLegible) :
    readByPrecedence o.render.toList = some o.shape ↔ ∀ sub ∈ o.walk, sub.keepsLeftOperand = true := by
  rw [readByPrecedence_render h, read_tokens_iff, Operand.isClear_precedence_iff]

/-- `a + b == !c & d` comes back, and what is written `a + !b == c` does not. -/
theorem readByPrecedence_render_iff_not :
    let a : Operand := .var ⟨"a", 0⟩
    let b : Operand := .var ⟨"b", 1⟩
    let c : Operand := .var ⟨"c", 2⟩
    let kept : Operand := .binary .and (.binary .eq (.binary .add a b) (.unary .not c)) (.var ⟨"d", 3⟩)
    let lost : Operand := .binary .eq (.binary .add a (.unary .not b)) c
    kept.IsLegible ∧ lost.IsLegible ∧
    readByPrecedence kept.render.toList = some kept.shape ∧ readByPrecedence lost.render.toList ≠ some lost.shape := by
  intro a b c kept lost
  have hkept : kept.IsLegible := by decide +kernel
  have hlost : lost.IsLegible := by decide +kernel
  refine ⟨hkept, hlost, (readByPrecedence_render_iff hkept).2 (by decide), fun h => ?_⟩
  exact absurd ((readByPrecedence_render_iff hlost).1 h) (by decide)

/-- Not every legible text groups as the precedences say: the negation of `b` takes the comparison with it. -/
theorem comparison_read_into_negation :
    let o : Operand := .binary .eq (.binary .add (.var ⟨"a", 0⟩) (.unary .not (.var ⟨"b", 1⟩))) (.var ⟨"c", 2⟩)
    o.IsLegible ∧ o.render = "a + !b == c" ∧
    readByPrecedence o.render.toList =
      some (.binary .add (.leaf "a") (.unary .not (.binary .eq (.leaf "b") (.leaf "c")))) ∧
    readByPrecedence o.render.toList ≠ some o.shape := by
  intro o
  have ho : o.IsLegible := by decide +kernel
  have hread : readByPrecedence o.render.toList =
      some (.binary .add (.leaf "a") (.unary .not (.binary .eq (.leaf "b") (.leaf "c")))) := by
    rw [readByPrecedence_render ho]
    rfl
  refine ⟨ho, by decide +kernel, hread, ?_⟩
  rw [hread]
  simp [o, Operand.shape]

end ThreeAddress.Code
