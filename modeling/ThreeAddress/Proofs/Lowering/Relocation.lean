import ThreeAddress.Proofs.Code.Temps
import ThreeAddress.Proofs.Lowering.Verified
/-!
# Lowering from another temporary on

Two sessions are run side by side whose supplies differ by `n` temporaries. Call after call they stay `Raised`: the
same settings, the same variable table and the same instructions with every temporary numbered `n` higher, while the
answers are the same rejections, or operands that are raised in the same way (`Relocated`). The records are left out,
for they show the numbers.
-/
namespace ThreeAddress.Code

/-! ## Raised numbers -/

variable (n : Nat)

def Temp.raise (t : Temp) : Temp := ⟨t.id + n⟩

/-- Every temporary with a number that is `n` higher. -/
def Operand.raise (o : Operand) : Operand := o.subst fun t => .temp (t.raise n)

def Target.raise : Target → Target
  | .temp t => .temp (t.raise n)
  | .var v => .var v

def Instr.raise : Instr → Instr
  | .assign target source => .assign (target.raise n) (source.raise n)
  | .ret value => .ret (value.raise n)

def CodeUnit.raise (u : CodeUnit) : CodeUnit := { u with instrs := u.instrs.map (Instr.raise n) }

@[simp] theorem CodeUnit.raise_push (u : CodeUnit) (i : Instr) : (u.push i).raise n = (u.raise n).push (i.raise n) := by
  simp [raise, push]

theorem Operand.raise_ne_const {o : Operand} (h : ∀ value, o ≠ .const value) (value : Constant) :
    o.raise n ≠ .const value := by
  cases o with
  | const c => exact absurd rfl (h c)
  | _ => simp [raise, subst]

theorem Operand.raise_call (callee : Operand) (args : List Operand) :
    (Operand.call callee args).raise n = .call (callee.raise n) (args.map (raise n)) := by
  rw [raise, subst, substAll_eq_map]
  rfl

end ThreeAddress.Code

namespace ThreeAddress.Lowering

open Source Code

/-! ## Two sessions side by side -/

namespace Session

/-- The second session is the first one with its temporaries raised by `n`. -/
structure Raised (n : Nat) (s s' : Session) : Prop where
  config : s'.config = s.config
  code : s'.code = s.code.raise n
  temps : s'.temps.allocated = s.temps.allocated + n

section
variable {n : Nat} {s s' : Session}

theorem Raised.fresh (h : Raised n s s') : s'.temps.fresh.1 = s.temps.fresh.1.raise n := by
  have hid : s'.temps.fresh.1.id = s.temps.fresh.1.id + n := by
    rw [TempSupply.id_fresh, TempSupply.id_fresh, h.temps, Nat.add_right_comm]
  exact congrArg Temp.mk hid

theorem Raised.intern (h : Raised n s s') (name : String) : (s'.code.intern name).1 = (s.code.intern name).1 := by
  rw [h.code]
  rfl

theorem Raised.withName (h : Raised n s s') (name : String) : Raised n (s.withName name) (s'.withName name) where
  config := h.config
  code := by
    change (s'.code.intern name).2 = (s.code.intern name).2.raise n
    rw [h.code]
    rfl
  temps := h.temps

theorem Raised.withInstr (h : Raised n s s') (i : Instr) : Raised n (s.withInstr i) (s'.withInstr (i.raise n)) where
  config := h.config
  code := by
    change s'.code.push (i.raise n) = (s.code.push i).raise n
    rw [h.code, CodeUnit.raise_push]
  temps := h.temps

theorem Raised.withTemp (h : Raised n s s') (source : Operand) :
    Raised n (s.withTemp source) (s'.withTemp (source.raise n)) := by
  have hs : Raised n { s with temps := s.temps.fresh.2 } { s' with temps := s'.temps.fresh.2 } :=
    ⟨h.config, h.code, by simp only [TempSupply.allocated_fresh, h.temps, Nat.add_right_comm]⟩
  have hi := hs.withInstr (.assign (.temp s.temps.fresh.1) source)
  rwa [Instr.raise, Target.raise, ← h.fresh] at hi

end

end Session

open Session

/-- Two results of the same kind that leave raised sessions, where `f` raises the answer. -/
inductive Relocated {α : Type} (n : Nat) (f : α → α) :
    EStateM.Result Rejection Session α → EStateM.Result Rejection Session α → Prop
  | ok (a : α) {s s' : Session} (h : Raised n s s') : Relocated n f (.ok a s) (.ok (f a) s')
  | error (e : Rejection) {s s' : Session} (h : Raised n s s') : Relocated n f (.error e s) (.error e s')

def StepsRelocated {α : Type} (n : Nat) (f : α → α) (x y : Step α) : Prop :=
  ∀ s s' : Session, Raised n s s' → Relocated n f (x s) (y s')

section
variable {α β : Type} {n : Nat} {f : α → α} {g : β → β}

theorem StepsRelocated.bind {x y : Step α} {k l : α → Step β} (hx : StepsRelocated n f x y)
    (hk : ∀ a, StepsRelocated n g (k a) (l (f a))) : StepsRelocated n g (x >>= k) (y >>= l) := by
  intro s s' h
  have hr := hx s s' h
  generalize hs : x s = r, hs' : y s' = r' at hr
  cases hr with
  | ok a ht =>
    rw [bind_of_ok hs, bind_of_ok hs']
    exact hk a _ _ ht
  | error e ht =>
    rw [bind_of_error hs, bind_of_error hs']
    exact .error e ht

theorem stepsRelocated_pure (n : Nat) (f : α → α) (a : α) : StepsRelocated n f (pure a) (pure (f a)) :=
  fun _ _ h => .ok a h

theorem stepsRelocated_throw (n : Nat) (f : α → α) (e : Rejection) :
    StepsRelocated n f (throw e : Step α) (throw e) :=
  fun _ _ h => .error e h

end

variable (n : Nat)

theorem stepsRelocated_intern (name : String) : StepsRelocated n id (Session.intern name) (Session.intern name) := by
  intro s s' h
  rw [intern_apply, intern_apply, h.intern]
  exact .ok _ (h.withName name)

theorem stepsRelocated_emit (i : Instr) : StepsRelocated n id (Session.emit i) (Session.emit (i.raise n)) :=
  fun _ _ h => .ok () (h.withInstr i)

theorem stepsRelocated_nameByTemp (source : Operand) :
    StepsRelocated n (Operand.raise n) (Session.nameByTemp source) (Session.nameByTemp (source.raise n)) := by
  intro s s' h
  rw [nameByTemp_apply, nameByTemp_apply, h.fresh]
  exact .ok (Operand.temp s.temps.fresh.1) (h.withTemp source)

theorem stepsRelocated_toZeroBased (target : Expr) (index : Operand) :
    StepsRelocated n (Operand.raise n) (toZeroBased target index) (toZeroBased target (index.raise n)) := by
  intro s s' h
  cases hb : s.config.indexBase with
  | zero =>
    rw [toZeroBased_zero hb, toZeroBased_zero (by rw [h.config, hb])]
    exact .ok index h
  | one =>
    have hb' : s'.config.indexBase = .one := by rw [h.config, hb]
    by_cases hi : ∃ value, index = .const value
    · obtain ⟨value, rfl⟩ := hi
      change Relocated n _ _ (toZeroBased target (.const value) s')
      rw [toZeroBased_one_const hb, toZeroBased_one_const hb']
      cases shiftConstant value with
      | ok shifted => exact .ok (Operand.const shifted) h
      | error position => exact .error _ h
    · rw [toZeroBased_one hb target (not_exists.1 hi),
        toZeroBased_one hb' target (Operand.raise_ne_const n (not_exists.1 hi))]
      exact stepsRelocated_nameByTemp n (.binary .sub index (.const (.int 1))) s s' h

/-! ## Programs -/

theorem stepsRelocated_lowerArgs {args : List Expr}
    (h : ∀ arg ∈ args, StepsRelocated n (Operand.raise n) (lowerExpr arg) (lowerExpr arg)) :
    StepsRelocated n (List.map (Operand.raise n)) (lowerArgs args) (lowerArgs args) := by
  induction args with
  | nil =>
    rw [lowerArgs]
    exact stepsRelocated_pure n _ []
  | cons arg args ih =>
    rw [lowerArgs]
    refine (h arg List.mem_cons_self).bind fun o => ?_
    refine (ih fun a ha => h a (List.mem_cons_of_mem _ ha)).bind fun os => ?_
    exact stepsRelocated_pure n (List.map (Operand.raise n)) (o :: os)

theorem stepsRelocated_lowerExpr (e : Expr) : StepsRelocated n (Operand.raise n) (lowerExpr e) (lowerExpr e) := by
  induction e using Expr.inductionOn with
  | literal value =>
    rw [lowerExpr]
    exact stepsRelocated_pure n _ (Operand.const value)
  | ident name =>
    rw [lowerExpr]
    exact (stepsRelocated_intern n name).bind fun v => stepsRelocated_pure n _ (Operand.var v)
  | binary op left right ihl ihr =>
    rw [lowerExpr]
    refine ihl.bind fun lhs => ihr.bind fun rhs => ?_
    exact stepsRelocated_nameByTemp n (.binary (lowerBinaryOp op) lhs rhs)
  | unary op operand ih =>
    rw [lowerExpr]
    exact ih.bind fun x => stepsRelocated_nameByTemp n (.unary (lowerUnaryOp op) x)
  | noIndex | manyIndices =>
    rw [lowerExpr]
    exact stepsRelocated_throw n _ _
  | oneIndex target index iht ihi =>
    rw [lowerExpr]
    refine iht.bind fun vector => ihi.bind fun position => ?_
    refine (stepsRelocated_toZeroBased n target position).bind fun zeroBased => ?_
    exact stepsRelocated_nameByTemp n (.element vector zeroBased)
  | call function args ih =>
    rw [lowerExpr]
    refine (stepsRelocated_lowerArgs n ih).bind fun operands => ?_
    have h := stepsRelocated_nameByTemp n (.call (.func function) operands)
    rwa [Operand.raise_call] at h

theorem stepsRelocated_lowerStmt (stmt : Stmt) : StepsRelocated n id (lowerStmt stmt) (lowerStmt stmt) := by
  cases stmt with
  | assign name value =>
    rw [lowerStmt]
    refine (stepsRelocated_lowerExpr n value).bind fun source => (stepsRelocated_intern n name).bind fun v => ?_
    exact stepsRelocated_emit n (.assign (.var v) source)
  | expr value =>
    rw [lowerStmt]
    exact (stepsRelocated_lowerExpr n value).bind fun _ => stepsRelocated_pure n id ()
  | ret value =>
    rw [lowerStmt]
    exact (stepsRelocated_lowerExpr n value).bind fun o => stepsRelocated_emit n (.ret o)

theorem stepsRelocated_lowerStmts (program : List Stmt) :
    StepsRelocated n id (lowerStmts program) (lowerStmts program) := by
  induction program with
  | nil =>
    rw [lowerStmts]
    exact stepsRelocated_pure n id ()
  | cons stmt program ih =>
    rw [lowerStmts]
    exact (stepsRelocated_lowerStmt n stmt).bind fun _ => ih

/-! ## Sessions of calls -/

theorem stepsRelocated_step (call : Call) : StepsRelocated n (Option.map (Operand.raise n)) call.step call.step := by
  cases call with
  | expr e => exact (stepsRelocated_lowerExpr n e).bind fun o => stepsRelocated_pure n _ (some o)
  | stmt single => exact (stepsRelocated_lowerStmt n single).bind fun _ => stepsRelocated_pure n _ none
  | stmts program => exact (stepsRelocated_lowerStmts n program).bind fun _ => stepsRelocated_pure n _ none

/-- What a step answers. -/
def answerOf {α : Type} : EStateM.Result Rejection Session α → Except Rejection α
  | .ok a _ => .ok a
  | .error e _ => .error e

/-- The answers to calls made one after another. -/
def Session.answers (s : Session) : List Call → List (Except Rejection (Option Operand))
  | [] => []
  | call :: calls => answerOf (call.step s) :: (s.after call).answers calls

theorem Relocated.answerOf {α : Type} {n : Nat} {f : α → α} {r r' : EStateM.Result Rejection Session α}
    (h : Relocated n f r r') : answerOf r' = (answerOf r).map f := by
  cases h <;> rfl

theorem Relocated.raised {α : Type} {n : Nat} {f : α → α} {r r' : EStateM.Result Rejection Session α}
    (h : Relocated n f r r') : Raised n (sessionOf r) (sessionOf r') := by
  cases h with
  | ok _ h => exact h
  | error _ h => exact h

theorem Session.Raised.afterAll {n : Nat} {s s' : Session} (h : Raised n s s') (calls : List Call) :
    Raised n (s.afterAll calls) (s'.afterAll calls) := by
  induction calls generalizing s s' with
  | nil => exact h
  | cons call calls ih => exact ih (stepsRelocated_step n call s s' h).raised

theorem Session.Raised.answers {n : Nat} {s s' : Session} (h : Raised n s s') (calls : List Call) :
    s'.answers calls = (s.answers calls).map (Except.map (Option.map (Operand.raise n))) := by
  induction calls generalizing s s' with
  | nil => rfl
  | cons call calls ih =>
    have hr := stepsRelocated_step n call s s' h
    rw [Session.answers, Session.answers, List.map_cons, hr.answerOf]
    exact congrArg _ (ih hr.raised)

theorem raised_start (name : String) (config : Config) (temps : TempSupply) :
    Raised temps.allocated (Session.start name config) (Session.start name config temps) :=
  ⟨rfl, by simp [Session.start, CodeUnit.raise], (Nat.zero_add _).symm⟩

end ThreeAddress.Lowering
