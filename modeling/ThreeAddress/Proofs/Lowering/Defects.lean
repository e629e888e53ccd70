import ThreeAddress.Proofs.Lowering.Growth
/-!
# Which programs are rejected

The defects of an expression are listed from its syntax alone, in the order in which lowering would meet them if it went
on behind each of them. Lowering stops at the first: a step is rejected exactly if there is a defect, and for the reason
that the first one gives. Neither the code and the names that the session holds nor the temporaries it has taken matter.
-/
namespace ThreeAddress.Source

/-- The expression that a statement evaluates. -/
def Stmt.value : Stmt → Expr
  | .assign _ value => value
  | .expr value => value
  | .ret value => value

end ThreeAddress.Source

namespace ThreeAddress.Lowering

open Source Code Session

/-! ## Defects -/

/-- The least integer has no position below it, so that it cannot be a one-based index. -/
def shiftDefects : IndexBase → Expr → Expr → List Rejection
  | .one, target, .literal (.int k) => if k = Int64.minValue then [.unshiftableIndex (describe target) k] else []
  | _, _, _ => []

mutual

/-- A subscript with a wrong number of indices hides what is inside it. -/
def exprDefects (base : IndexBase) : Expr → List Rejection
  | .literal _ => []
  | .ident _ => []
  | .binary _ left right => exprDefects base left ++ exprDefects base right
  | .unary _ operand => exprDefects base operand
  | .subscript target [] => [.noIndex (describe target)]
  | .subscript target [index] => exprDefects base target ++ (exprDefects base index ++ shiftDefects base target index)
  | .subscript target (_ :: _ :: rest) => [.manyIndices (describe target) (rest.length + 2)]
  | .call _ args => argDefects base args

def argDefects (base : IndexBase) : List Expr → List Rejection
  | [] => []
  | arg :: args => exprDefects base arg ++ argDefects base args

end

/-- Statements behind a return count too. -/
def programDefects (base : IndexBase) (program : List Stmt) : List Rejection :=
  program.flatMap fun stmt => exprDefects base stmt.value

/-! ## Rejections -/

/-- Why a step was rejected, if it was. -/
def rejection? {α : Type} : EStateM.Result Rejection Session α → Option Rejection
  | .ok _ _ => none
  | .error cause _ => some cause

section
variable {α β : Type} {x : Step α} {f : α → Step β} {s : Session}

/-- The defects of what comes second only matter when the first part has none. -/
theorem rejection?_bind {first second : List Rejection} (hx : rejection? (x s) = first.head?)
    (hf : ∀ a t, x s = .ok a t → rejection? (f a t) = second.head?) :
    rejection? ((x >>= f) s) = (first ++ second).head? := by
  rw [List.head?_append, ← hx]
  cases hr : x s with
  | ok a t =>
    rw [bind_of_ok hr]
    exact hf a t hr
  | error cause t =>
    rw [bind_of_error hr]
    rfl

theorem rejection?_bind_of_total (hf : ∀ a t, rejection? (f a t) = none) :
    rejection? ((x >>= f) s) = rejection? (x s) := by
  cases hr : x s with
  | ok a t =>
    rw [bind_of_ok hr]
    exact hf a t
  | error cause t =>
    rw [bind_of_error hr]
    rfl

end

theorem config_of_lowerExpr {e : Expr} {s t : Session} {o : Operand} (h : lowerExpr e s = .ok o t) :
    t.config = s.config :=
  (lowerExpr_ok h).1.continues.config

theorem config_of_lowerStmt {stmt : Stmt} {s t : Session} (h : lowerStmt stmt s = .ok () t) : t.config = s.config :=
  (lowerStmt_ok h).continues.config

theorem rejection?_toZeroBased_const {s : Session} (h : s.config.indexBase = .one) (target : Expr) (value : Constant) :
    rejection? (toZeroBased target (.const value) s) = (shiftDefects .one target (.literal value)).head? := by
  rw [toZeroBased_one_const h]
  cases value with
  | int k => by_cases hk : k = Int64.minValue <;> simp [shiftConstant, shiftDefects, hk, rejection?]
  | _ => rfl

/-- The conversion looks at the lowered index, and that is a constant only where the program has a literal. -/
theorem rejection?_toZeroBased {index : Expr} {s t : Session} {position : Operand}
    (h : lowerExpr index s = .ok position t) (target : Expr) :
    rejection? (toZeroBased target position t) = (shiftDefects t.config.indexBase target index).head? := by
  cases hb : t.config.indexBase with
  | zero =>
    rw [toZeroBased_zero hb]
    rfl
  | one =>
    by_cases hl : ∃ value, index = .literal value
    · obtain ⟨value, rfl⟩ := hl
      rw [lowerExpr] at h
      cases h
      exact rejection?_toZeroBased_const hb target value
    · rw [toZeroBased_one hb target (ne_const_of_lowerExpr h (not_exists.1 hl)), nameByTemp_apply]
      cases index with
      | literal value => exact absurd ⟨value, rfl⟩ hl
      | _ => rfl

theorem rejection?_lowerArgs {args : List Expr}
    (h : ∀ arg ∈ args, ∀ s, rejection? (lowerExpr arg s) = (exprDefects s.config.indexBase arg).head?) (s : Session) :
    rejection? (lowerArgs args s) = (argDefects s.config.indexBase args).head? := by
  induction args generalizing s with
  | nil => rfl
  | cons arg args ih =>
    rw [lowerArgs, argDefects]
    refine rejection?_bind (h arg List.mem_cons_self s) fun o t ht => ?_
    rw [rejection?_bind_of_total fun _ _ => rfl, ← config_of_lowerExpr ht]
    exact ih (fun a ha => h a (List.mem_cons_of_mem _ ha)) t

theorem rejection?_lowerExpr (e : Expr) (s : Session) :
    rejection? (lowerExpr e s) = (exprDefects s.config.indexBase e).head? := by
  induction e using Expr.inductionOn generalizing s with
  | literal value => rw [lowerExpr, exprDefects]; rfl
  | ident name => rw [lowerExpr, exprDefects]; rfl
  | binary op left right ihl ihr =>
    rw [lowerExpr, exprDefects]
    refine rejection?_bind (ihl s) fun lhs t ht => ?_
    rw [rejection?_bind_of_total fun _ _ => rfl, ← config_of_lowerExpr ht]
    exact ihr t
  | unary op operand ih =>
    rw [lowerExpr, exprDefects, rejection?_bind_of_total fun _ _ => rfl]
    exact ih s
  | noIndex target _ => rw [lowerExpr, exprDefects]; rfl
  | oneIndex target index iht ihi =>
    rw [lowerExpr, exprDefects]
    refine rejection?_bind (iht s) fun vector t ht => ?_
    rw [← config_of_lowerExpr ht]
    refine rejection?_bind (ihi t) fun position u hu => ?_
    rw [rejection?_bind_of_total fun _ _ => rfl, ← config_of_lowerExpr hu]
    exact rejection?_toZeroBased hu target
  | manyIndices target first second rest _ _ => rw [lowerExpr, exprDefects]; rfl
  | call function args ih =>
    rw [lowerExpr, exprDefects, rejection?_bind_of_total fun _ _ => rfl]
    exact rejection?_lowerArgs ih s

theorem rejection?_lowerStmt (stmt : Stmt) (s : Session) :
    rejection? (lowerStmt stmt s) = (exprDefects s.config.indexBase stmt.value).head? := by
  rw [← rejection?_lowerExpr]
  cases stmt <;> exact rejection?_bind_of_total fun _ _ => rfl

theorem rejection?_lowerStmts (program : List Stmt) (s : Session) :
    rejection? (lowerStmts program s) = (programDefects s.config.indexBase program).head? := by
  induction program generalizing s with
  | nil => rfl
  | cons stmt program ih =>
    rw [lowerStmts, programDefects, List.flatMap_cons]
    refine rejection?_bind (rejection?_lowerStmt stmt s) fun _ t ht => ?_
    rw [← config_of_lowerStmt ht]
    exact ih t

theorem lowerUnit_eq_error_iff {config : Config} {name : String} {program : List Stmt} {cause : Rejection} :
    (lowerUnit config name program).value = .error cause ↔
      rejection? (lowerStmts program (Session.start name config)) = some cause := by
  unfold lowerUnit
  cases lowerStmts program (Session.start name config) <;> simp [rejection?]

/-- In every session an expression, a statement and a list of statements are rejected for their first defect, and go
through if they have none; and so is a program lowered as a unit. -/
theorem rejected_for_first_defect (s : Session) :
    (∀ e, rejection? (lowerExpr e s) = (exprDefects s.config.indexBase e).head?) ∧
    (∀ stmt, rejection? (lowerStmt stmt s) = (exprDefects s.config.indexBase stmt.value).head?) ∧
    (∀ program, rejection? (lowerStmts program s) = (programDefects s.config.indexBase program).head?) ∧
    ∀ config name program cause, (lowerUnit config name program).value = .error cause ↔
      (programDefects config.indexBase program).head? = some cause := by
  refine ⟨fun e => rejection?_lowerExpr e s, fun stmt => rejection?_lowerStmt stmt s,
    fun program => rejection?_lowerStmts program s, fun config name program cause => ?_⟩
  rw [lowerUnit_eq_error_iff, rejection?_lowerStmts]
  rfl

/-- The target comes before the shift of its index, and nothing inside a subscript with two indices counts. -/
example : exprDefects .one (.binary .add
      (.subscript (.call "f" [.subscript (.ident "x") []]) [.literal (.int Int64.minValue)])
      (.subscript (.ident "y") [.subscript (.ident "z") [], .ident "i"])) =
    [.noIndex "x", .unshiftableIndex "f(...)" Int64.minValue, .manyIndices "y" 2] := by decide

end ThreeAddress.Lowering
