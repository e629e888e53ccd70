import ThreeAddress.Proofs.Lowering.Defects
/-!
# What a rejected step leaves

Lowering goes through an expression from left to right and stops at the first defect, halfway through everything around
it. `completed` lists the sub-expressions that were lowered by then, the largest ones only. What a rejected step leaves
behind is the session in which just these were lowered, one after another: none of the operations that were still open
has taken a temporary or written an instruction.
-/
namespace ThreeAddress.Lowering

open Source Code Session

def isDefective (base : IndexBase) (e : Expr) : Bool := !(exprDefects base e).isEmpty

mutual

/-- The sub-expressions of an expression with a defect that lie before the first one. -/
def completed (base : IndexBase) : Expr → List Expr
  | .literal _ => []
  | .ident _ => []
  | .binary _ left right =>
    if isDefective base left then completed base left else left :: completed base right
  | .unary _ operand => completed base operand
  | .subscript _ [] => []
  | .subscript target [index] =>
    if isDefective base target then completed base target
    -- a defect that is in neither of the two is met when the index is shifted
    else target :: if isDefective base index then completed base index else [index]
  | .subscript _ (_ :: _ :: _) => []
  | .call _ args => completedArgs base args

def completedArgs (base : IndexBase) : List Expr → List Expr
  | [] => []
  | arg :: args => if isDefective base arg then completed base arg else arg :: completedArgs base args

end

/-- Lowering the expressions one after another takes `s` to `t`, and none of them is rejected. -/
def LowersTo (es : List Expr) (s t : Session) : Prop := ∃ os, lowerArgs es s = .ok os t

theorem lowersTo_nil (s : Session) : LowersTo [] s s := ⟨[], rfl⟩

theorem LowersTo.cons {e : Expr} {es : List Expr} {s t u : Session} {o : Operand} (he : lowerExpr e s = .ok o t)
    (hes : LowersTo es t u) : LowersTo (e :: es) s u := by
  obtain ⟨os, hos⟩ := hes
  refine ⟨o :: os, ?_⟩
  rw [lowerArgs, bind_of_ok he, bind_of_ok hos]
  rfl

/-! ## Expressions -/

theorem isDefective_iff {e : Expr} {s : Session} :
    isDefective s.config.indexBase e = true ↔ ∃ cause t, lowerExpr e s = .error cause t := by
  have h := rejection?_lowerExpr e s
  cases hr : lowerExpr e s with
  | ok o t =>
    rw [hr] at h
    simp [isDefective, List.head?_eq_none_iff.1 h.symm]
  | error cause t =>
    rw [hr] at h
    simp [isDefective, List.ne_nil_of_mem (List.mem_of_mem_head? h.symm)]

theorem isDefective_of_error {e : Expr} {s t : Session} {cause : Rejection} (h : lowerExpr e s = .error cause t) :
    isDefective s.config.indexBase e = true :=
  isDefective_iff.2 ⟨cause, t, h⟩

theorem not_isDefective_of_ok {e : Expr} {s t : Session} {o : Operand} (h : lowerExpr e s = .ok o t) :
    ¬ isDefective s.config.indexBase e = true := by
  intro hd
  obtain ⟨cause, u, he⟩ := isDefective_iff.1 hd
  rw [h] at he
  cases he

/-- A step that goes on with what cannot be rejected is rejected in its first part. -/
theorem bind_eq_error_of_total {α β : Type} {x : Step α} {f : α → Step β} {s t : Session} {cause : Rejection}
    (hf : ∀ a u, rejection? (f a u) = none) : (x >>= f) s = .error cause t ↔ x s = .error cause t := by
  rw [bind_eq_error]
  constructor
  · rintro (h | ⟨a, u, -, h⟩)
    · exact h
    · have hnone := hf a u
      rw [h] at hnone
      cases hnone
  · exact .inl

theorem session_of_toZeroBased_error {target : Expr} {index : Operand} {s t : Session} {cause : Rejection}
    (h : toZeroBased target index s = .error cause t) : t = s := by
  cases hb : s.config.indexBase with
  | zero =>
    rw [toZeroBased_zero hb] at h
    cases h
  | one =>
    by_cases hi : ∃ value, index = .const value
    · obtain ⟨value, rfl⟩ := hi
      rw [toZeroBased_one_const hb] at h
      split at h <;> cases h
      rfl
    · rw [toZeroBased_one hb target (not_exists.1 hi)] at h
      cases h

/-- A rejected step that begins with an expression: either the expression is rejected, or it is completed and what
follows is rejected. -/
theorem lowersTo_of_bind_error {α : Type} {e : Expr} {f : Operand → Step α} {rest : List Expr} {s t : Session}
    {cause : Rejection} (h : (lowerExpr e >>= f) s = .error cause t)
    (he : lowerExpr e s = .error cause t → LowersTo (completed s.config.indexBase e) s t)
    (hf : ∀ o u, lowerExpr e s = .ok o u → f o u = .error cause t → LowersTo rest u t) :
    LowersTo (if isDefective s.config.indexBase e then completed s.config.indexBase e else e :: rest) s t := by
  rcases bind_eq_error.1 h with h | ⟨o, u, hu, h⟩
  · rw [if_pos (isDefective_of_error h)]
    exact he h
  · rw [if_neg (not_isDefective_of_ok hu)]
    exact .cons hu (hf o u hu h)

theorem lowersTo_of_lowerArgs_error {args : List Expr}
    (hargs : ∀ arg ∈ args, ∀ {s t cause}, lowerExpr arg s = .error cause t →
      LowersTo (completed s.config.indexBase arg) s t)
    {s t : Session} {cause : Rejection} (h : lowerArgs args s = .error cause t) :
    LowersTo (completedArgs s.config.indexBase args) s t := by
  induction args generalizing s with
  | nil => cases h
  | cons arg args ih =>
    rw [lowerArgs] at h
    rw [completedArgs]
    refine lowersTo_of_bind_error h (hargs arg List.mem_cons_self) fun o u hu h => ?_
    rw [bind_eq_error_of_total fun _ _ => rfl] at h
    rw [← config_of_lowerExpr hu]
    exact ih (fun a ha => hargs a (List.mem_cons_of_mem _ ha)) h

theorem lowersTo_of_lowerExpr_error {e : Expr} {s t : Session} {cause : Rejection}
    (h : lowerExpr e s = .error cause t) : LowersTo (completed s.config.indexBase e) s t := by
  induction e using Expr.inductionOn generalizing s t cause with
  | literal value =>
    rw [lowerExpr] at h
    cases h
  | ident name =>
    rw [lowerExpr] at h
    cases h
  | binary op left right ihl ihr =>
    rw [lowerExpr] at h
    rw [completed]
    refine lowersTo_of_bind_error h ihl fun lhs u hu h => ?_
    rw [bind_eq_error_of_total fun _ _ => rfl] at h
    rw [← config_of_lowerExpr hu]
    exact ihr h
  | unary op operand ih =>
    rw [lowerExpr, bind_eq_error_of_total fun _ _ => rfl] at h
    rw [completed]
    exact ih h
  | noIndex target _ =>
    rw [lowerExpr] at h
    cases h
    exact lowersTo_nil s
  | oneIndex target index iht ihi =>
    rw [lowerExpr] at h
    rw [completed]
    refine lowersTo_of_bind_error h iht fun vector u hu h => ?_
    rw [← config_of_lowerExpr hu]
    refine lowersTo_of_bind_error h ihi fun position v hv h => ?_
    -- both are lowered, so it was the shift, which changes nothing before it is rejected
    rw [bind_eq_error_of_total fun _ _ => rfl] at h
    rw [session_of_toZeroBased_error h]
    exact lowersTo_nil v
  | manyIndices target first second rest _ _ =>
    rw [lowerExpr] at h
    cases h
    exact lowersTo_nil s
  | call function args ih =>
    rw [lowerExpr, bind_eq_error_of_total fun _ _ => rfl] at h
    rw [completed]
    exact lowersTo_of_lowerArgs_error (fun arg ha _ _ _ => ih arg ha) h

/-! ## Statements -/

theorem lowerStmt_eq_error_iff {stmt : Stmt} {s t : Session} {cause : Rejection} :
    lowerStmt stmt s = .error cause t ↔ lowerExpr stmt.value s = .error cause t := by
  cases stmt <;> exact bind_eq_error_of_total fun _ _ => rfl

theorem lowerStmts_eq_error_iff {program : List Stmt} {s t : Session} {cause : Rejection} :
    lowerStmts program s = .error cause t ↔
      ∃ before stmt after u, program = before ++ stmt :: after ∧ lowerStmts before s = .ok () u ∧
        lowerStmt stmt u = .error cause t := by
  induction program generalizing s with
  | nil =>
    constructor
    · intro h
      cases h
    · rintro ⟨before, stmt, after, u, h, -⟩
      simp at h
  | cons first program ih =>
    rw [lowerStmts, bind_eq_error]
    constructor
    · rintro (h | ⟨_, u, hu, h⟩)
      · exact ⟨[], first, program, s, rfl, rfl, h⟩
      · obtain ⟨before, stmt, after, v, rfl, hv, h⟩ := ih.1 h
        refine ⟨first :: before, stmt, after, v, rfl, ?_, h⟩
        rw [lowerStmts, bind_of_ok hu, hv]
    · rintro ⟨before, stmt, after, v, heq, hv, h⟩
      cases before with
      | nil =>
        obtain ⟨rfl, rfl⟩ := List.cons.inj heq
        cases hv
        exact .inl h
      | cons _ before =>
        obtain ⟨rfl, rfl⟩ := List.cons.inj heq
        rw [lowerStmts, bind_eq_ok] at hv
        obtain ⟨a, u, hu, hv⟩ := hv
        exact .inr ⟨a, u, hu, ih.2 ⟨before, stmt, after, v, rfl, hv, h⟩⟩

/-- A rejected expression leaves the session, with its code, names, temporaries and records, as lowering the completed
sub-expressions leaves it. A rejected statement leaves what its expression leaves, and a rejected list of statements
what its first rejected statement leaves behind the statements before it. -/
theorem rejected_step_leaves_completed (s : Session) :
    (∀ e, isDefective s.config.indexBase e = true ↔ ∃ cause t, lowerExpr e s = .error cause t) ∧
    (∀ e cause t, lowerExpr e s = .error cause t → LowersTo (completed s.config.indexBase e) s t) ∧
    (∀ stmt cause t, lowerStmt stmt s = .error cause t ↔ lowerExpr stmt.value s = .error cause t) ∧
    ∀ program cause t, lowerStmts program s = .error cause t ↔
      ∃ before stmt after u, program = before ++ stmt :: after ∧ lowerStmts before s = .ok () u ∧
        lowerStmt stmt u = .error cause t :=
  ⟨fun _ => isDefective_iff, fun _ _ _ => lowersTo_of_lowerExpr_error, fun _ _ _ => lowerStmt_eq_error_iff,
    fun _ _ _ => lowerStmts_eq_error_iff⟩

/-- An index that cannot be shifted: the call on the left is done, the target and the index of the subscript on the
right are too, and the assigned name is not in the table. -/
theorem rejected_step_leaves_completed_shift :
    let s := Session.start "main" { indexBase := .one } { next := 5 }
    let call : Expr := .call "f" [.ident "x"]
    let least : Expr := .literal (.int Int64.minValue)
    let stmt : Stmt := .assign "y" (.binary .add call (.subscript (.ident "a") [least]))
    let t := sessionOf (lowerStmt stmt s)
    lowerStmt stmt s = .error (.unshiftableIndex "a" Int64.minValue) t ∧
    t.code = { name := "main"
               instrs := #[.assign (.temp ⟨5⟩) (.call (.func "f") [.var ⟨"x", 0⟩])]
               vars := ⟨[⟨"x", 0⟩, ⟨"a", 1⟩]⟩ } ∧
    t.temps = { next := 6 } ∧
    LowersTo [call, .ident "a", least] s t := by
  intro s call least stmt t
  obtain ⟨-, hexpr, hstmt, -⟩ := rejected_step_leaves_completed s
  have ht : lowerStmt stmt s = .error (.unshiftableIndex "a" Int64.minValue) t := rfl
  exact ⟨ht, rfl, rfl, hexpr _ _ t ((hstmt stmt _ t).1 ht)⟩

end ThreeAddress.Lowering
