import ThreeAddress.Proofs.Lowering.Growth
/-!
# One-based subscripts are zero-based subscripts of a shifted program

`Expr.shift` writes the conversion of indices into the program itself. One-based lowering decides on the operand that
an index was lowered to and emits the subtraction on its own, while zero-based lowering of the shifted program meets a
subtraction in the syntax. The two go side by side (`Alike`): session after session they differ in their settings only,
and they are rejected for the same reason at the same moment.
-/
namespace ThreeAddress.Source

/-- An index one position lower: a number is shifted at once, other literals carry no position, and from anything else
one is subtracted. -/
def shiftIndex : Expr → Expr
  | .literal (.int k) => .literal (.int (k - 1))
  | .literal (.double d) => .literal (.double d.minusOne)
  | .literal value => .literal value
  | index => .binary .subtract index (.literal (.int 1))

/-- The least integer as the only index. -/
def isLeastIndex : List Expr → Bool
  | [.literal (.int k)] => k = Int64.minValue
  | _ => false

namespace Expr

mutual

/-- Shifts every subscript with one index, innermost first. -/
def shift : Expr → Expr
  | .literal value => .literal value
  | .ident name => .ident name
  | .binary op left right => .binary op (shift left) (shift right)
  | .unary op operand => .unary op (shift operand)
  | .subscript target [] => .subscript (shift target) []
  | .subscript target [index] => .subscript (shift target) [shiftIndex (shift index)]
  | .subscript target (first :: second :: rest) =>
    .subscript (shift target) (shift first :: shift second :: shiftAll rest)
  | .call function args => .call function (shiftAll args)

def shiftAll : List Expr → List Expr
  | [] => []
  | e :: es => shift e :: shiftAll es

end

mutual

/-- Some subscript has the least integer as its only index. -/
def hasLeastIndex : Expr → Bool
  | .literal _ => false
  | .ident _ => false
  | .binary _ left right => hasLeastIndex left || hasLeastIndex right
  | .unary _ operand => hasLeastIndex operand
  | .subscript target indices => isLeastIndex indices || hasLeastIndex target || anyLeastIndex indices
  | .call _ args => anyLeastIndex args

def anyLeastIndex : List Expr → Bool
  | [] => false
  | e :: es => hasLeastIndex e || anyLeastIndex es

end

end Expr

def Stmt.shift : Stmt → Stmt
  | .assign name value => .assign name value.shift
  | .expr value => .expr value.shift
  | .ret value => .ret value.shift

def Stmt.hasLeastIndex : Stmt → Bool
  | .assign _ value => value.hasLeastIndex
  | .expr value => value.hasLeastIndex
  | .ret value => value.hasLeastIndex

theorem shiftIndex_of_ne_literal {e : Expr} (h : ∀ value, e ≠ .literal value) :
    shiftIndex e = .binary .subtract e (.literal (.int 1)) := by
  cases e with
  | literal value => exact absurd rfl (h value)
  | _ => rfl

theorem Expr.shift_ne_literal {e : Expr} (h : ∀ value, e ≠ .literal value) (value : Constant) :
    e.shift ≠ .literal value := by
  cases e using Expr.inductionOn with
  | literal value => exact absurd rfl (h value)
  | _ => simp [shift]

theorem Expr.length_shiftAll (es : List Expr) : (Expr.shiftAll es).length = es.length := by
  induction es with
  | nil => rfl
  | cons e es ih => simp [Expr.shiftAll, ih]

end ThreeAddress.Source

namespace ThreeAddress.Lowering

open Source Code Session

theorem describe_shift (e : Expr) : describe e.shift = describe e := by
  cases e using Expr.inductionOn <;> simp [Expr.shift, describe]

/-! ## Two sessions side by side -/

def Session.withBase (s : Session) (base : IndexBase) : Session := { s with config := s.config.withIndexBase base }

/-- Two results that differ in the settings of their sessions only, one-based on the left and zero-based on the
right. -/
inductive Alike {α : Type} : EStateM.Result Rejection Session α → EStateM.Result Rejection Session α → Prop
  | ok (a : α) (s : Session) : Alike (.ok a (s.withBase .one)) (.ok a (s.withBase .zero))
  | error (e : Rejection) (s : Session) : Alike (.error e (s.withBase .one)) (.error e (s.withBase .zero))

/-- From sessions that differ in their settings only, `x` does with one-based subscripts what `y` does with
zero-based ones. -/
def StepsAlike {α : Type} (x y : Step α) : Prop := ∀ s : Session, Alike (x (s.withBase .one)) (y (s.withBase .zero))

section
variable {α β : Type}

theorem StepsAlike.bind {x y : Step α} {f g : α → Step β} (hx : StepsAlike x y) (hf : ∀ a, StepsAlike (f a) (g a)) :
    StepsAlike (x >>= f) (y >>= g) := by
  intro s
  have h := hx s
  generalize hl : x (s.withBase .one) = l, hr : y (s.withBase .zero) = r at h
  cases h with
  | ok a t =>
    rw [bind_of_ok hl, bind_of_ok hr]
    exact hf a t
  | error e t =>
    rw [bind_of_error hl, bind_of_error hr]
    exact .error e t

theorem stepsAlike_pure (a : α) : StepsAlike (pure a) (pure a) := fun s => .ok a s

theorem stepsAlike_throw (e : Rejection) : StepsAlike (throw e : Step α) (throw e) := fun s => .error e s

end

theorem stepsAlike_intern (name : String) : StepsAlike (Session.intern name) (Session.intern name) :=
  fun s => .ok (s.code.intern name).1 (s.withName name)

theorem stepsAlike_emit (i : Instr) : StepsAlike (Session.emit i) (Session.emit i) := fun s => .ok () (s.withInstr i)

theorem stepsAlike_nameByTemp (source : Operand) : StepsAlike (Session.nameByTemp source) (Session.nameByTemp source) :=
  fun s => .ok (Operand.temp s.temps.fresh.1) (s.withTemp source)

/-! ## Indices -/

theorem shiftConstant_of_shiftIndex {value shifted : Constant} (hv : isLeastIndex [.literal value] = false)
    (hs : shiftIndex (.literal value) = .literal shifted) : shiftConstant value = .ok shifted := by
  cases value with
  | int k =>
    have hk : k ≠ Int64.minValue := by simpa [isLeastIndex] using hv
    cases hs
    simp [shiftConstant, hk]
  | _ =>
    cases hs
    rfl

theorem exists_shiftIndex_literal (value : Constant) : ∃ shifted, shiftIndex (.literal value) = .literal shifted := by
  cases value <;> exact ⟨_, rfl⟩

/-- A literal index is shifted at once on both sides. -/
theorem stepsAlike_literalIndex {value : Constant} (h : isLeastIndex [.literal value] = false) (target target' : Expr) :
    StepsAlike (lowerExpr (.literal value) >>= toZeroBased target)
      (lowerExpr (shiftIndex (.literal value)) >>= toZeroBased target') := by
  intro s
  obtain ⟨shifted, hs⟩ := exists_shiftIndex_literal value
  have hl : lowerExpr (.literal value) (s.withBase .one) = .ok (.const value) (s.withBase .one) := by
    rw [lowerExpr]
    rfl
  have hr : lowerExpr (.literal shifted) (s.withBase .zero) = .ok (.const shifted) (s.withBase .zero) := by
    rw [lowerExpr]
    rfl
  rw [hs, bind_of_ok hl, bind_of_ok hr, toZeroBased_one_const rfl, toZeroBased_zero rfl,
    shiftConstant_of_shiftIndex h hs]
  exact .ok _ s

/-- From any other index one side subtracts of its own accord and the other because the program says so. -/
theorem stepsAlike_computedIndex {index : Expr} (h : ∀ value, index ≠ .literal value)
    (ih : StepsAlike (lowerExpr index) (lowerExpr index.shift)) (target target' : Expr) :
    StepsAlike (lowerExpr index >>= toZeroBased target)
      (lowerExpr (shiftIndex index.shift) >>= toZeroBased target') := by
  intro s
  rw [shiftIndex_of_ne_literal (Expr.shift_ne_literal h)]
  have hs := ih s
  generalize hl : lowerExpr index (s.withBase .one) = l, hr : lowerExpr index.shift (s.withBase .zero) = r at hs
  cases hs with
  | ok o t =>
    have hsub : lowerExpr (.binary .subtract index.shift (.literal (.int 1))) (s.withBase .zero) =
        Session.nameByTemp (.binary .sub o (.const (.int 1))) (t.withBase .zero) := by
      rw [lowerExpr, bind_of_ok hr, lowerExpr]
      rfl
    rw [bind_of_ok hl, toZeroBased_one rfl target (ne_const_of_lowerExpr hl h), bind_of_ok hsub,
      toZeroBased_zero rfl]
    exact stepsAlike_nameByTemp (.binary .sub o (.const (.int 1))) t
  | error e t =>
    have hsub : lowerExpr (.binary .subtract index.shift (.literal (.int 1))) (s.withBase .zero) =
        .error e (t.withBase .zero) := by
      rw [lowerExpr, bind_of_error hr]
    rw [bind_of_error hl, bind_of_error hsub]
    exact .error e t

/-! ## Programs -/

theorem stepsAlike_lowerArgs {args : List Expr} (hargs : Expr.anyLeastIndex args = false)
    (h : ∀ arg ∈ args, arg.hasLeastIndex = false → StepsAlike (lowerExpr arg) (lowerExpr arg.shift)) :
    StepsAlike (lowerArgs args) (lowerArgs (Expr.shiftAll args)) := by
  induction args with
  | nil => exact stepsAlike_pure []
  | cons arg args ih =>
    simp only [Expr.anyLeastIndex, Bool.or_eq_false_iff] at hargs
    rw [Expr.shiftAll, lowerArgs, lowerArgs]
    refine (h arg List.mem_cons_self hargs.1).bind fun o => ?_
    refine (ih hargs.2 fun a ha => h a (List.mem_cons_of_mem _ ha)).bind fun os => ?_
    exact stepsAlike_pure (o :: os)

theorem stepsAlike_lowerExpr {e : Expr} (he : e.hasLeastIndex = false) :
    StepsAlike (lowerExpr e) (lowerExpr e.shift) := by
  induction e using Expr.inductionOn with
  | literal value =>
    rw [Expr.shift, lowerExpr]
    exact stepsAlike_pure _
  | ident name =>
    rw [Expr.shift, lowerExpr]
    exact (stepsAlike_intern name).bind fun v => stepsAlike_pure _
  | binary op left right ihl ihr =>
    simp only [Expr.hasLeastIndex, Bool.or_eq_false_iff] at he
    rw [Expr.shift, lowerExpr, lowerExpr]
    exact (ihl he.1).bind fun lhs => (ihr he.2).bind fun rhs => stepsAlike_nameByTemp _
  | unary op operand ih =>
    rw [Expr.hasLeastIndex] at he
    rw [Expr.shift, lowerExpr, lowerExpr]
    exact (ih he).bind fun x => stepsAlike_nameByTemp _
  | noIndex target _ =>
    rw [Expr.shift, lowerExpr, lowerExpr, describe_shift]
    exact stepsAlike_throw _
  | oneIndex target index iht ihi =>
    simp only [Expr.hasLeastIndex, Expr.anyLeastIndex, Bool.or_eq_false_iff] at he
    obtain ⟨⟨hleast, ht⟩, hi, -⟩ := he
    -- an index and its conversion go as one step: the shifted program subtracts while it lowers the index, the
    -- other one only when it converts
    have hindex : StepsAlike (lowerExpr index >>= toZeroBased target)
        (lowerExpr (shiftIndex index.shift) >>= toZeroBased target.shift) := by
      by_cases hl : ∃ value, index = .literal value
      · obtain ⟨value, rfl⟩ := hl
        rw [Expr.shift]
        exact stepsAlike_literalIndex hleast target target.shift
      · exact stepsAlike_computedIndex (not_exists.1 hl) (ihi hi) target target.shift
    rw [Expr.shift, lowerExpr, lowerExpr]
    refine (iht ht).bind fun vector => ?_
    have h := hindex.bind fun zeroBased => stepsAlike_nameByTemp (.element vector zeroBased)
    rwa [bind_assoc, bind_assoc] at h
  | manyIndices target first second rest _ _ =>
    rw [Expr.shift, lowerExpr, lowerExpr, describe_shift, Expr.length_shiftAll]
    exact stepsAlike_throw _
  | call function args ih =>
    rw [Expr.hasLeastIndex] at he
    rw [Expr.shift, lowerExpr, lowerExpr]
    exact (stepsAlike_lowerArgs he ih).bind fun operands => stepsAlike_nameByTemp _

theorem stepsAlike_lowerStmt {stmt : Stmt} (h : stmt.hasLeastIndex = false) :
    StepsAlike (lowerStmt stmt) (lowerStmt stmt.shift) := by
  cases stmt with
  | assign name value =>
    rw [Stmt.shift, lowerStmt, lowerStmt]
    exact (stepsAlike_lowerExpr h).bind fun source => (stepsAlike_intern name).bind fun v => stepsAlike_emit _
  | expr value =>
    rw [Stmt.shift, lowerStmt, lowerStmt]
    exact (stepsAlike_lowerExpr h).bind fun _ => stepsAlike_pure ()
  | ret value =>
    rw [Stmt.shift, lowerStmt, lowerStmt]
    exact (stepsAlike_lowerExpr h).bind fun o => stepsAlike_emit _

theorem stepsAlike_lowerStmts {program : List Stmt} (h : ∀ stmt ∈ program, stmt.hasLeastIndex = false) :
    StepsAlike (lowerStmts program) (lowerStmts (program.map Stmt.shift)) := by
  induction program with
  | nil => exact stepsAlike_pure ()
  | cons stmt program ih =>
    rw [List.map_cons, lowerStmts, lowerStmts]
    refine (stepsAlike_lowerStmt (h stmt List.mem_cons_self)).bind fun _ => ?_
    exact ih fun s hs => h s (List.mem_cons_of_mem _ hs)

/-- One-based lowering is zero-based lowering of the shifted program: the same unit or the same rejection, and the same
records on the way. -/
theorem lowerUnit_one_eq_zero_shift (name : String) (program : List Stmt)
    (h : ∀ stmt ∈ program, stmt.hasLeastIndex = false) :
    lowerUnit { indexBase := .one } name program =
      lowerUnit { indexBase := .zero } name (program.map Stmt.shift) := by
  have ha := stepsAlike_lowerStmts h (Session.start name {})
  unfold lowerUnit
  generalize hl : lowerStmts program (Session.start name { indexBase := .one }) = l,
    hr : lowerStmts (program.map Stmt.shift) (Session.start name { indexBase := .zero }) = r
  have ha' : Alike l r := by rw [← hl, ← hr]; exact ha
  cases ha' with
  | ok a s => rfl
  | error e s => rfl

/-- Subscripts in the target and in the index of another, with each kind of index: `a[2.5][b["k"][1]]` is shifted to
`a[1.5][b["k"][0] - 1]`. -/
theorem lowerUnit_one_eq_zero_shift_nested :
    let program : List Stmt :=
      [.ret (.subscript (.subscript (.ident "a") [.literal (.double ⟨0x4004000000000000⟩)])
        [.subscript (.subscript (.ident "b") [.literal (.str "k")]) [.literal (.int 1)]])]
    let shifted : List Stmt :=
      [.ret (.subscript (.subscript (.ident "a") [.literal (.double ⟨0x3FF8000000000000⟩)])
        [.binary .subtract (.subscript (.subscript (.ident "b") [.literal (.str "k")]) [.literal (.int 0)])
          (.literal (.int 1))])]
    let u : CodeUnit :=
      { name := "main"
        instrs := #[.assign (.temp ⟨1⟩) (.element (.var ⟨"a", 0⟩) (.const (.double ⟨0x3FF8000000000000⟩))),
          .assign (.temp ⟨2⟩) (.element (.var ⟨"b", 1⟩) (.const (.str "k"))),
          .assign (.temp ⟨3⟩) (.element (.temp ⟨2⟩) (.const (.int 0))),
          .assign (.temp ⟨4⟩) (.binary .sub (.temp ⟨3⟩) (.const (.int 1))),
          .assign (.temp ⟨5⟩) (.element (.temp ⟨1⟩) (.temp ⟨4⟩)), .ret (.temp ⟨5⟩)]
        vars := ⟨[⟨"a", 0⟩, ⟨"b", 1⟩]⟩ }
    (∀ stmt ∈ program, stmt.hasLeastIndex = false) ∧ program.map Stmt.shift = shifted ∧
    lowerUnit { indexBase := .one } "main" program = lowerUnit { indexBase := .zero } "main" shifted ∧
    (lowerUnit { indexBase := .one } "main" program).value = .ok u := by
  intro program shifted u
  have hleast : ∀ stmt ∈ program, stmt.hasLeastIndex = false := by decide
  have hshift : program.map Stmt.shift = shifted := rfl
  exact ⟨hleast, hshift, hshift ▸ lowerUnit_one_eq_zero_shift "main" program hleast, rfl⟩

end ThreeAddress.Lowering
