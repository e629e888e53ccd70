import ThreeAddress.Proofs.Lowering.Defects
/-!
# Steps that go through

What holds of literals and names, and of an operation as soon as it holds of its parts, holds of every expression that
is lowered (`lowerExpr_inductionOn`). The sessions before and after each part are at hand, so that a property can speak
of the instructions that a part has added (`Session.emitted`), of the names and of the temporaries. What an index goes
through between its own lowering and the access is summed up in `Converted`, and what a statement adds to its expression
in `Session.withStmt`.
-/
namespace ThreeAddress.Source.Expr

mutual

/-- The expression and everything below it, parents before children and left before right. -/
def nodes : Expr → List Expr
  | .literal value => [.literal value]
  | .ident name => [.ident name]
  | .binary op left right => .binary op left right :: (nodes left ++ nodes right)
  | .unary op operand => .unary op operand :: nodes operand
  | .subscript target indices => .subscript target indices :: (nodes target ++ nodesAll indices)
  | .call function args => .call function args :: nodesAll args

def nodesAll : List Expr → List Expr
  | [] => []
  | e :: es => nodes e ++ nodesAll es

end

theorem nodesAll_eq_flatMap (es : List Expr) : nodesAll es = es.flatMap nodes := by
  induction es with
  | nil => rfl
  | cons e es ih => rw [nodesAll, ih, List.flatMap_cons]

/-- Neither a literal nor a name. -/
def isOperation : Expr → Bool
  | .literal _ | .ident _ => false
  | .binary .. | .unary .. | .subscript .. | .call .. => true

end ThreeAddress.Source.Expr

namespace ThreeAddress.Lowering

open Source Code

namespace Session

/-! ## The instructions of a part -/

/-- The instructions that `t` has behind those of `s`. -/
def emitted (s t : Session) : List Instr := t.code.instrs.toList.drop s.code.instrs.toList.length

theorem Continues.toList_instrs {s t : Session} (h : Continues s t) :
    t.code.instrs.toList = s.code.instrs.toList ++ emitted s t := by
  obtain ⟨code, hcode⟩ := h.instrs
  rw [emitted, ← hcode, List.drop_left]

theorem emitted_eq_of_append {s t : Session} {code : List Instr}
    (h : t.code.instrs.toList = s.code.instrs.toList ++ code) : emitted s t = code := by
  rw [emitted, h, List.drop_left]

theorem emitted_self (s : Session) : emitted s s = [] := by
  apply emitted_eq_of_append
  simp

theorem emitted_trans {s t u : Session} (hst : Continues s t) (htu : Continues t u) :
    emitted s u = emitted s t ++ emitted t u := by
  apply emitted_eq_of_append
  rw [htu.toList_instrs, hst.toList_instrs, List.append_assoc]

theorem emitted_withName (s : Session) (name : String) : emitted s (s.withName name) = [] := emitted_self s

theorem emitted_withInstr {s t : Session} (h : Continues s t) (i : Instr) :
    emitted s (t.withInstr i) = emitted s t ++ [i] := by
  apply emitted_eq_of_append
  rw [toList_instrs_withInstr, h.toList_instrs, List.append_assoc]

theorem emitted_withTemp {s t : Session} (h : Continues s t) (source : Operand) :
    emitted s (t.withTemp source) = emitted s t ++ [.assign (.temp t.temps.fresh.1) source] :=
  emitted_withInstr h (.assign (.temp t.temps.fresh.1) source)

end Session

open Session

/-! ## Indices -/

/-- What an index that was lowered to `position` is turned into: it is kept, it is a literal and shifted at once, or
one is subtracted from it. -/
inductive Converted (index : Expr) (position : Operand) (s : Session) : Operand → Session → Prop
  | kept (hb : s.config.indexBase = .zero) : Converted index position s position s
  | folded {value shifted : Constant} (hb : s.config.indexBase = .one) (hi : index = .literal value)
      (hp : position = .const value) (hs : shiftConstant value = .ok shifted) :
      Converted index position s (.const shifted) s
  | computed (hb : s.config.indexBase = .one) (hi : ∀ value, index ≠ .literal value) :
      Converted index position s (.temp s.temps.fresh.1) (s.withTemp (.binary .sub position (.const (.int 1))))

theorem converted_of_ok {target index : Expr} {position zeroBased : Operand} {s t u : Session}
    (hi : lowerExpr index s = .ok position t) (hz : toZeroBased target position t = .ok zeroBased u) :
    Converted index position t zeroBased u := by
  cases hb : t.config.indexBase with
  | zero =>
    rw [toZeroBased_zero hb] at hz
    cases hz
    exact .kept hb
  | one =>
    by_cases hl : ∃ value, index = .literal value
    · obtain ⟨value, rfl⟩ := hl
      rw [lowerExpr] at hi
      cases hi
      rw [toZeroBased_one_const hb] at hz
      cases hs : shiftConstant value with
      | ok shifted =>
        rw [hs] at hz
        cases hz
        exact .folded hb rfl rfl hs
      | error k =>
        rw [hs] at hz
        cases hz
    · have hl' := not_exists.1 hl
      rw [toZeroBased_one hb target (ne_const_of_lowerExpr hi hl')] at hz
      cases hz
      exact .computed hb hl'

theorem Converted.continues {index : Expr} {position zeroBased : Operand} {s t : Session}
    (h : Converted index position s zeroBased t) : Continues s t := by
  cases h with
  | kept | folded => exact .refl s
  | computed => exact continues_withTemp s _

/-! ## Induction -/

/-- Expressions that are lowered one after another, with a property of each of them. -/
inductive EachLowered (P : Expr → Session → Operand → Session → Prop) :
    List Expr → Session → List Operand → Session → Prop
  | nil (s : Session) : EachLowered P [] s [] s
  | cons {arg : Expr} {args : List Expr} {s u t : Session} {o : Operand} {os : List Operand}
      (h : lowerExpr arg s = .ok o u) (hp : P arg s o u) (hs : EachLowered P args u os t) :
      EachLowered P (arg :: args) s (o :: os) t

section
variable {P : Expr → Session → Operand → Session → Prop}

theorem eachLowered_of_ok {args : List Expr} {s t : Session} {os : List Operand}
    (hp : ∀ arg ∈ args, ∀ {s t o}, lowerExpr arg s = .ok o t → P arg s o t) (h : lowerArgs args s = .ok os t) :
    EachLowered P args s os t := by
  induction args generalizing s os with
  | nil =>
    rw [lowerArgs] at h
    cases h
    exact .nil _
  | cons arg args ih =>
    simp only [lowerArgs, bind_eq_ok] at h
    obtain ⟨o, u, ho, os', v, hos, hpure⟩ := h
    cases hpure
    exact .cons ho (hp arg List.mem_cons_self ho) (ih (fun a ha => hp a (List.mem_cons_of_mem _ ha)) hos)

theorem EachLowered.continues {args : List Expr} {s t : Session} {os : List Operand} (h : EachLowered P args s os t) :
    Continues s t := by
  induction h with
  | nil s => exact .refl s
  | cons h _ _ ih => exact (lowerExpr_ok h).1.continues.trans ih

/-- Induction along a lowering that goes through. -/
theorem lowerExpr_inductionOn {e : Expr} {s t : Session} {o : Operand} (h : lowerExpr e s = .ok o t)
    (literal : ∀ value s, P (.literal value) s (.const value) s)
    (ident : ∀ name s, P (.ident name) s (.var (s.code.intern name).1) (s.withName name))
    (binary : ∀ op {left right s lhs u rhs v}, lowerExpr left s = .ok lhs u → lowerExpr right u = .ok rhs v →
      P left s lhs u → P right u rhs v →
        P (.binary op left right) s (.temp v.temps.fresh.1) (v.withTemp (.binary (lowerBinaryOp op) lhs rhs)))
    (unary : ∀ op {operand s x u}, lowerExpr operand s = .ok x u → P operand s x u →
      P (.unary op operand) s (.temp u.temps.fresh.1) (u.withTemp (.unary (lowerUnaryOp op) x)))
    (subscript : ∀ {target index s vector u position v zeroBased w}, lowerExpr target s = .ok vector u →
      lowerExpr index u = .ok position v → Converted index position v zeroBased w →
        P target s vector u → P index u position v →
          P (.subscript target [index]) s (.temp w.temps.fresh.1) (w.withTemp (.element vector zeroBased)))
    (call : ∀ function {args s operands u}, EachLowered P args s operands u →
      P (.call function args) s (.temp u.temps.fresh.1) (u.withTemp (.call (.func function) operands))) :
    P e s o t := by
  induction e using Expr.inductionOn generalizing s o t with
  | literal value =>
    rw [lowerExpr] at h
    cases h
    exact literal value s
  | ident name =>
    rw [lowerExpr] at h
    cases h
    exact ident name s
  | binary op left right ihl ihr =>
    simp only [lowerExpr, bind_eq_ok, nameByTemp_apply] at h
    obtain ⟨lhs, u, hl, rhs, v, hr, hn⟩ := h
    cases hn
    exact binary op hl hr (ihl hl) (ihr hr)
  | unary op operand ih =>
    simp only [lowerExpr, bind_eq_ok, nameByTemp_apply] at h
    obtain ⟨x, u, hx, hn⟩ := h
    cases hn
    exact unary op hx (ih hx)
  | oneIndex target index iht ihi =>
    simp only [lowerExpr, bind_eq_ok, nameByTemp_apply] at h
    obtain ⟨vector, u, ht, position, v, hi, zeroBased, w, hz, hn⟩ := h
    cases hn
    exact subscript ht hi (converted_of_ok hi hz) (iht ht) (ihi hi)
  | noIndex | manyIndices =>
    rw [lowerExpr] at h
    cases h
  | call function args ih =>
    simp only [lowerExpr, bind_eq_ok, nameByTemp_apply] at h
    obtain ⟨operands, u, ha, hn⟩ := h
    cases hn
    exact call function (eachLowered_of_ok (fun arg harg _ _ _ => ih arg harg) ha)

end

/-- An expression is lowered to a temporary exactly if it is an operation. -/
theorem isOperation_iff_of_lowerExpr {e : Expr} {s t : Session} {o : Operand} (h : lowerExpr e s = .ok o t) :
    e.isOperation = true ↔ ∃ x, o = .temp x := by
  apply lowerExpr_inductionOn (P := fun e _ o _ => e.isOperation = true ↔ ∃ x, o = .temp x) h
  case literal | ident => simp [Expr.isOperation]
  case binary | unary | subscript | call => simp [Expr.isOperation]

/-! ## Statements -/

/-- What a statement does once its expression is lowered to `o`. -/
def Session.withStmt (s : Session) (o : Operand) : Stmt → Session
  | .assign name _ => (s.withName name).withInstr (.assign (.var (s.code.intern name).1) o)
  | .expr _ => s
  | .ret _ => s.withInstr (.ret o)

theorem lowerStmt_eq_ok_iff {stmt : Stmt} {s t : Session} :
    lowerStmt stmt s = .ok () t ↔ ∃ o u, lowerExpr stmt.value s = .ok o u ∧ t = u.withStmt o stmt := by
  cases stmt with
  | assign name value =>
    simp only [lowerStmt, bind_eq_ok, intern_apply, emit_apply]
    constructor
    · rintro ⟨o, u, he, v, w, hi, hp⟩
      cases hi
      cases hp
      exact ⟨o, u, he, rfl⟩
    · rintro ⟨o, u, he, rfl⟩
      exact ⟨o, u, he, _, _, rfl, rfl⟩
  | expr value =>
    simp only [lowerStmt, bind_eq_ok]
    constructor
    · rintro ⟨o, u, he, hp⟩
      cases hp
      exact ⟨o, _, he, rfl⟩
    · rintro ⟨o, u, he, rfl⟩
      exact ⟨o, _, he, rfl⟩
  | ret value =>
    simp only [lowerStmt, bind_eq_ok, emit_apply]
    constructor
    · rintro ⟨o, u, he, hp⟩
      cases hp
      exact ⟨o, u, he, rfl⟩
    · rintro ⟨o, u, he, rfl⟩
      exact ⟨o, u, he, rfl⟩

theorem lowerStmts_cons_eq_ok_iff {stmt : Stmt} {program : List Stmt} {s t : Session} :
    lowerStmts (stmt :: program) s = .ok () t ↔
      ∃ o u, lowerExpr stmt.value s = .ok o u ∧ lowerStmts program (u.withStmt o stmt) = .ok () t := by
  rw [lowerStmts, bind_eq_ok]
  constructor
  · rintro ⟨_, v, hs, hrest⟩
    obtain ⟨o, u, he, rfl⟩ := lowerStmt_eq_ok_iff.1 hs
    exact ⟨o, u, he, hrest⟩
  · rintro ⟨o, u, he, hrest⟩
    exact ⟨(), _, lowerStmt_eq_ok_iff.2 ⟨o, u, he, rfl⟩, hrest⟩

end ThreeAddress.Lowering
