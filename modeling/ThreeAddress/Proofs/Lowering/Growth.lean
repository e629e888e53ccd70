import ThreeAddress.Lowering.Basic
import ThreeAddress.Proofs.Code.VarTable
import ThreeAddress.Proofs.Code.WellFormed
/-!
# How a session grows

Whatever is lowered, a session changes in four ways only: a name enters the variable table, an operation on readable
operands is named by a fresh temporary, a readable operand is assigned to a variable, or one is returned. `Grows` is
any number of such changes. `lowerExpr_grown`, `lowerStmt_grown` and `lowerStmts_grown` say so for every step, also
for one that is rejected halfway, so that what holds along `Grows` holds of all sessions.
-/
namespace ThreeAddress.Source

/-- Induction on expressions. Subscripts are told apart by the number of their indices. -/
@[elab_as_elim]
theorem Expr.inductionOn {P : Expr → Prop} (e : Expr) (literal : ∀ value, P (.literal value))
    (ident : ∀ name, P (.ident name)) (binary : ∀ op left right, P left → P right → P (.binary op left right))
    (unary : ∀ op operand, P operand → P (.unary op operand))
    (noIndex : ∀ target, P target → P (.subscript target []))
    (oneIndex : ∀ target index, P target → P index → P (.subscript target [index]))
    (manyIndices : ∀ target first second rest, P target → (∀ index ∈ first :: second :: rest, P index) →
      P (.subscript target (first :: second :: rest)))
    (call : ∀ function args, (∀ arg ∈ args, P arg) → P (.call function args)) : P e := by
  refine @Expr.rec P (fun es => ∀ e ∈ es, P e) literal ident binary unary ?_ call ?_ ?_ e
  · intro target indices ht hi
    match indices, hi with
    | [], _ => exact noIndex target ht
    | [index], hi => exact oneIndex target index ht (hi index List.mem_cons_self)
    | first :: second :: rest, hi => exact manyIndices target first second rest ht hi
  · intro e he
    cases he
  · intro e es he hes e' hmem
    rcases List.mem_cons.1 hmem with rfl | hmem
    · exact he
    · exact hes e' hmem

end ThreeAddress.Source

namespace ThreeAddress.Lowering

open Source Code

namespace Session

/-! ## The changes -/

def withName (s : Session) (name : String) : Session := { s with code := (s.code.intern name).2 }

def withInstr (s : Session) (i : Instr) : Session :=
  { s with code := s.code.push i, log := s.log.push (emittedRecord s.code.name i) }

/-- A fresh temporary is taken and assigned. -/
def withTemp (s : Session) (source : Operand) : Session :=
  withInstr { s with temps := s.temps.fresh.2 } (.assign (.temp s.temps.fresh.1) source)

theorem intern_apply (s : Session) (name : String) :
    intern name s = .ok (s.code.intern name).1 (s.withName name) := rfl

theorem emit_apply (s : Session) (i : Instr) : emit i s = .ok () (s.withInstr i) := rfl

theorem nameByTemp_apply (s : Session) (source : Operand) :
    nameByTemp source s = .ok (.temp s.temps.fresh.1) (s.withTemp source) := rfl

/-- A simple operand whose temporaries were given by the supply and are assigned. -/
structure Readable (s : Session) (o : Operand) : Prop where
  simple : o.isSimple = true
  given : ∀ t ∈ o.temps, t.id ≤ s.temps.allocated
  assigned : ∀ t ∈ o.temps, ∃ j, Produces s.code.instrs.toList j t

/-- Any number of changes that take `s` to another session. -/
inductive Grows (s : Session) : Session → Prop
  | refl : Grows s s
  | name {t : Session} (h : Grows s t) (name : String) : Grows s (t.withName name)
  | temp {t : Session} (h : Grows s t) (source : Operand) (hc : source.isComposite = true)
      (hr : ∀ sub ∈ source.subOperands, t.Readable sub) : Grows s (t.withTemp source)
  | assign {t : Session} (h : Grows s t) (v : Variable) (source : Operand) (hr : t.Readable source) :
      Grows s (t.withInstr (.assign (.var v) source))
  | ret {t : Session} (h : Grows s t) (value : Operand) (hr : t.Readable value) : Grows s (t.withInstr (.ret value))

theorem Grows.trans {s t u : Session} (hst : Grows s t) (htu : Grows t u) : Grows s u := by
  induction htu with
  | refl => exact hst
  | name _ name ih => exact ih.name name
  | temp _ source hc hr ih => exact ih.temp source hc hr
  | assign _ v source hr ih => exact ih.assign v source hr
  | ret _ value hr ih => exact ih.ret value hr

/-! ## What is never taken back -/

/-- Settings stay, and names, temporaries and instructions are only added. -/
structure Continues (s t : Session) : Prop where
  config : t.config = s.config
  vars : s.code.vars.toList <+: t.code.vars.toList
  temps : s.temps.allocated ≤ t.temps.allocated
  instrs : s.code.instrs.toList <+: t.code.instrs.toList

theorem Continues.refl (s : Session) : Continues s s := ⟨rfl, List.prefix_rfl, Nat.le_refl _, List.prefix_rfl⟩

theorem Continues.trans {s t u : Session} (hst : Continues s t) (htu : Continues t u) : Continues s u :=
  ⟨htu.config.trans hst.config, hst.vars.trans htu.vars, Nat.le_trans hst.temps htu.temps,
    hst.instrs.trans htu.instrs⟩

theorem continues_withName (s : Session) (name : String) : Continues s (s.withName name) where
  config := rfl
  vars := s.code.vars.isPrefix_intern name
  temps := Nat.le_refl _
  instrs := List.prefix_rfl

theorem toList_instrs_withInstr (s : Session) (i : Instr) :
    (s.withInstr i).code.instrs.toList = s.code.instrs.toList ++ [i] :=
  CodeUnit.toList_instrs_push s.code i

theorem continues_withInstr (s : Session) (i : Instr) : Continues s (s.withInstr i) where
  config := rfl
  vars := List.prefix_rfl
  temps := Nat.le_refl _
  instrs := by
    rw [toList_instrs_withInstr]
    exact List.prefix_append _ _

theorem continues_fresh (s : Session) : Continues s { s with temps := s.temps.fresh.2 } :=
  ⟨rfl, List.prefix_rfl, s.temps.allocated_le_fresh, List.prefix_rfl⟩

theorem continues_withTemp (s : Session) (source : Operand) : Continues s (s.withTemp source) :=
  (continues_fresh s).trans (continues_withInstr _ _)

theorem Grows.continues {s t : Session} (h : Grows s t) : Continues s t := by
  induction h with
  | refl => exact .refl s
  | name _ name ih => exact ih.trans (continues_withName _ name)
  | temp _ source _ _ ih => exact ih.trans (continues_withTemp _ source)
  | assign _ v source _ ih => exact ih.trans (continues_withInstr _ _)
  | ret _ value _ ih => exact ih.trans (continues_withInstr _ _)

theorem Grows.valid_vars {s t : Session} (h : Grows s t) (hs : s.code.vars.Valid) : t.code.vars.Valid := by
  induction h with
  | refl => exact hs
  | name _ name ih => exact ih.intern name
  | temp _ _ _ _ ih | assign _ _ _ _ ih | ret _ _ _ ih => exact ih

theorem Readable.mono {s t : Session} {o : Operand} (h : s.Readable o) (hst : Continues s t) : t.Readable o where
  simple := h.simple
  given u hu := Nat.le_trans (h.given u hu) hst.temps
  assigned u hu := by
    obtain ⟨j, hj⟩ := h.assigned u hu
    obtain ⟨rest, hrest⟩ := hst.instrs
    exact ⟨j, hrest ▸ (produces_append_iff_of_lt hj.lt).2 hj⟩

theorem readable_of_temps_eq_nil (s : Session) {o : Operand} (hs : o.isSimple = true) (ht : o.temps = []) :
    s.Readable o :=
  ⟨hs, by simp [ht], by simp [ht]⟩

theorem readable_const (s : Session) (value : Constant) : s.Readable (.const value) :=
  readable_of_temps_eq_nil s rfl rfl

theorem readable_var (s : Session) (v : Variable) : s.Readable (.var v) := readable_of_temps_eq_nil s rfl rfl

theorem readable_func (s : Session) (name : String) : s.Readable (.func name) := readable_of_temps_eq_nil s rfl rfl

theorem readable_pair {s : Session} {a b : Operand} (ha : s.Readable a) (hb : s.Readable b) :
    ∀ sub ∈ [a, b], s.Readable sub := by
  simp only [List.mem_cons, List.not_mem_nil, or_false]
  rintro sub (rfl | rfl)
  · exact ha
  · exact hb

/-- The temporary just taken can be read. -/
theorem readable_fresh (s : Session) (source : Operand) : (s.withTemp source).Readable (.temp s.temps.fresh.1) where
  simple := rfl
  given t ht := by
    obtain rfl : t = s.temps.fresh.1 := by simpa using ht
    exact Nat.le_refl _
  assigned t ht := by
    obtain rfl : t = s.temps.fresh.1 := by simpa using ht
    exact ⟨s.code.instrs.toList.length, source, by simp [withTemp, toList_instrs_withInstr]⟩

end Session

/-! ## Steps

A step is followed through its result: `Grown s Q r` holds when the session that `r` leaves has grown out of `s` and,
if the step went through, its answer satisfies `Q`. -/

open Session

/-- The session a step leaves, whether it went through or was rejected. -/
def sessionOf {α : Type} : EStateM.Result Rejection Session α → Session
  | .ok _ t => t
  | .error _ t => t

def Grown {α : Type} (s : Session) (Q : α → Session → Prop) : EStateM.Result Rejection Session α → Prop
  | .ok a t => Grows s t ∧ Q a t
  | .error _ t => Grows s t

section
variable {α β : Type} {s : Session} {Q : α → Session → Prop} {R : β → Session → Prop}

theorem Grown.trans {t : Session} {r : EStateM.Result Rejection Session α} (hst : Grows s t) (h : Grown t Q r) :
    Grown s Q r := by
  cases r with
  | ok a u => exact ⟨hst.trans h.1, h.2⟩
  | error e u => exact hst.trans h

theorem Grown.grows {r : EStateM.Result Rejection Session α} (h : Grown s Q r) : Grows s (sessionOf r) := by
  cases r with
  | ok a t => exact h.1
  | error e t => exact h

theorem Grown.of_ok {r : EStateM.Result Rejection Session α} {a : α} {t : Session} (h : Grown s Q r)
    (hr : r = .ok a t) : Grows s t ∧ Q a t := by
  subst hr
  exact h

theorem bind_of_ok {x : Step α} {f : α → Step β} {t : Session} {a : α} (h : x s = .ok a t) :
    (x >>= f) s = f a t := by
  change EStateM.bind x f s = _
  rw [EStateM.bind, h]

theorem bind_of_error {x : Step α} {f : α → Step β} {t : Session} {e : Rejection} (h : x s = .error e t) :
    (x >>= f) s = .error e t := by
  change EStateM.bind x f s = _
  rw [EStateM.bind, h]

theorem bind_eq_ok {x : Step α} {f : α → Step β} {b : β} {t : Session} :
    (x >>= f) s = .ok b t ↔ ∃ a u, x s = .ok a u ∧ f a u = .ok b t := by
  constructor
  · intro h
    cases hx : x s with
    | ok a u =>
      rw [bind_of_ok hx] at h
      exact ⟨a, u, rfl, h⟩
    | error e u =>
      rw [bind_of_error hx] at h
      cases h
  · rintro ⟨a, u, hx, hf⟩
    rw [bind_of_ok hx, hf]

theorem bind_eq_error {x : Step α} {f : α → Step β} {e : Rejection} {t : Session} :
    (x >>= f) s = .error e t ↔ x s = .error e t ∨ ∃ a u, x s = .ok a u ∧ f a u = .error e t := by
  cases hx : x s with
  | ok a u =>
    rw [bind_of_ok hx]
    constructor
    · intro hf
      exact .inr ⟨a, u, rfl, hf⟩
    · rintro (h | ⟨_, _, ⟨rfl, rfl⟩, hf⟩)
      · cases h
      · exact hf
  | error c u =>
    rw [bind_of_error hx]
    constructor
    · intro h
      cases h
      exact .inl rfl
    · rintro (h | ⟨_, _, h, -⟩)
      · cases h
        rfl
      · cases h

theorem Grown.bind {x : Step α} {f : α → Step β} (hx : Grown s Q (x s))
    (hf : ∀ a t, Grows s t → Q a t → Grown t R (f a t)) : Grown s R ((x >>= f) s) := by
  cases hr : x s with
  | ok a t =>
    obtain ⟨hst, ha⟩ := hx.of_ok hr
    rw [bind_of_ok hr]
    exact (hf a t hst ha).trans hst
  | error e t =>
    rw [hr] at hx
    rw [bind_of_error hr]
    exact hx

theorem grown_pure {a : α} (h : Q a s) : Grown s Q ((pure a : Step α) s) := ⟨.refl, h⟩

theorem grown_throw (e : Rejection) : Grown s Q ((throw e : Step α) s) := .refl

end

theorem intern_grown (s : Session) (name : String) :
    Grown s (fun v t => t.Readable (.var v)) (Session.intern name s) :=
  ⟨Grows.refl.name name, readable_var _ _⟩

theorem nameByTemp_grown {s : Session} {source : Operand} (hc : source.isComposite = true)
    (hr : ∀ sub ∈ source.subOperands, s.Readable sub) :
    Grown s (fun o t => t.Readable o) (Session.nameByTemp source s) :=
  ⟨Grows.refl.temp source hc hr, readable_fresh s source⟩

theorem toZeroBased_zero {s : Session} (h : s.config.indexBase = .zero) (target : Expr) (index : Operand) :
    toZeroBased target index s = .ok index s := by
  obtain ⟨⟨base⟩, code, temps, log⟩ := s
  obtain rfl : base = .zero := h
  rfl

theorem toZeroBased_one_const {s : Session} (h : s.config.indexBase = .one) (target : Expr) (value : Constant) :
    toZeroBased target (.const value) s =
      match shiftConstant value with
      | .ok shifted => .ok (.const shifted) s
      | .error position => .error (.unshiftableIndex (describe target) position) s := by
  obtain ⟨⟨base⟩, code, temps, log⟩ := s
  obtain rfl : base = .one := h
  change (match shiftConstant value with
    | .ok shifted => (pure (.const shifted) : Step Operand)
    | .error position => throw (Rejection.unshiftableIndex (describe target) position)) _ = _
  cases shiftConstant value <;> rfl

theorem toZeroBased_one {s : Session} (h : s.config.indexBase = .one) (target : Expr) {index : Operand}
    (hi : ∀ value, index ≠ .const value) :
    toZeroBased target index s = Session.nameByTemp (.binary .sub index (.const (.int 1))) s := by
  obtain ⟨⟨base⟩, code, temps, log⟩ := s
  obtain rfl : base = .one := h
  cases index with
  | const value => exact absurd rfl (hi value)
  | _ => rfl

theorem toZeroBased_grown {s : Session} {index : Operand} (target : Expr) (h : s.Readable index) :
    Grown s (fun o t => t.Readable o) (toZeroBased target index s) := by
  cases hb : s.config.indexBase with
  | zero =>
    rw [toZeroBased_zero hb]
    exact ⟨.refl, h⟩
  | one =>
    by_cases hi : ∃ value, index = .const value
    · obtain ⟨value, rfl⟩ := hi
      rw [toZeroBased_one_const hb]
      cases shiftConstant value with
      | ok shifted => exact ⟨.refl, readable_const s shifted⟩
      | error position => exact Grows.refl
    · rw [toZeroBased_one hb target (not_exists.1 hi)]
      exact nameByTemp_grown rfl (readable_pair h (readable_const s _))

theorem lowerArgs_grown {args : List Expr}
    (h : ∀ arg ∈ args, ∀ s, Grown s (fun o t => t.Readable o) (lowerExpr arg s)) (s : Session) :
    Grown s (fun os t => ∀ o ∈ os, t.Readable o) (lowerArgs args s) := by
  induction args generalizing s with
  | nil => exact grown_pure (by simp)
  | cons arg args ih =>
    rw [lowerArgs]
    refine (h arg List.mem_cons_self s).bind fun o t _ ho => ?_
    refine (ih (fun a ha => h a (List.mem_cons_of_mem _ ha)) t).bind fun os u htu hos => grown_pure ?_
    intro o' ho'
    rcases List.mem_cons.1 ho' with rfl | ho'
    · exact ho.mono htu.continues
    · exact hos o' ho'

/-- Lowering an expression grows the session, and what it is lowered to can be read. -/
theorem lowerExpr_grown (e : Expr) (s : Session) : Grown s (fun o t => t.Readable o) (lowerExpr e s) := by
  induction e using Expr.inductionOn generalizing s with
  | literal value =>
    rw [lowerExpr]
    exact grown_pure (readable_const s value)
  | ident name =>
    rw [lowerExpr]
    exact (intern_grown s name).bind fun v t _ hv => grown_pure hv
  | binary op left right ihl ihr =>
    rw [lowerExpr]
    refine (ihl s).bind fun lhs t _ hl => (ihr t).bind fun rhs u htu hr => ?_
    exact nameByTemp_grown rfl (readable_pair (hl.mono htu.continues) hr)
  | unary op operand ih =>
    rw [lowerExpr]
    refine (ih s).bind fun x t _ hx => nameByTemp_grown rfl ?_
    intro sub hsub
    rw [List.mem_singleton.1 hsub]
    exact hx
  | noIndex target _ =>
    rw [lowerExpr]
    exact grown_throw _
  | oneIndex target index iht ihi =>
    rw [lowerExpr]
    refine (iht s).bind fun vector t _ hv => (ihi t).bind fun position u htu hp => ?_
    -- the conversion may take a temporary of its own, behind which the vector is still readable
    refine (toZeroBased_grown target hp).bind fun zeroBased w huw hz => ?_
    exact nameByTemp_grown rfl (readable_pair (hv.mono (htu.trans huw).continues) hz)
  | manyIndices target first second rest _ _ =>
    rw [lowerExpr]
    exact grown_throw _
  | call function args ih =>
    rw [lowerExpr]
    refine (lowerArgs_grown ih s).bind fun operands t _ ho => nameByTemp_grown rfl ?_
    intro sub hsub
    rcases List.mem_cons.1 hsub with rfl | hsub
    · exact readable_func t function
    · exact ho sub hsub

theorem lowerExpr_ok {e : Expr} {s t : Session} {o : Operand} (h : lowerExpr e s = .ok o t) :
    Grows s t ∧ t.Readable o :=
  (lowerExpr_grown e s).of_ok h

theorem lowerArgs_ok {args : List Expr} {s t : Session} {os : List Operand} (h : lowerArgs args s = .ok os t) :
    Grows s t ∧ ∀ o ∈ os, t.Readable o :=
  (lowerArgs_grown (fun arg _ => lowerExpr_grown arg) s).of_ok h

/-- Only a literal is lowered to a constant. -/
theorem ne_const_of_lowerExpr {e : Expr} {s t : Session} {o : Operand} (h : lowerExpr e s = .ok o t)
    (he : ∀ value, e ≠ .literal value) (value : Constant) : o ≠ .const value := by
  rintro rfl
  cases e using Expr.inductionOn with
  | literal value => exact he value rfl
  | ident name =>
    simp only [lowerExpr, bind_eq_ok] at h
    obtain ⟨v, u, -, hp⟩ := h
    cases hp
  | binary op left right _ _ =>
    simp only [lowerExpr, bind_eq_ok] at h
    obtain ⟨lhs, u, -, rhs, v, -, hn⟩ := h
    cases hn
  | unary op operand _ =>
    simp only [lowerExpr, bind_eq_ok] at h
    obtain ⟨x, u, -, hn⟩ := h
    cases hn
  | noIndex target _ =>
    rw [lowerExpr] at h
    cases h
  | oneIndex target index _ _ =>
    simp only [lowerExpr, bind_eq_ok] at h
    obtain ⟨vector, u, -, position, v, -, zeroBased, w, -, hn⟩ := h
    cases hn
  | manyIndices target first second rest _ _ =>
    rw [lowerExpr] at h
    cases h
  | call function args _ =>
    simp only [lowerExpr, bind_eq_ok] at h
    obtain ⟨operands, u, -, hn⟩ := h
    cases hn

theorem lowerStmt_grown (stmt : Stmt) (s : Session) : Grown s (fun _ _ => True) (lowerStmt stmt s) := by
  cases stmt with
  | assign name value =>
    rw [lowerStmt]
    refine (lowerExpr_grown value s).bind fun source t _ hs => ?_
    refine (intern_grown t name).bind fun v u htu _ => ?_
    exact ⟨Grows.refl.assign v source (hs.mono htu.continues), trivial⟩
  | expr value =>
    rw [lowerStmt]
    exact (lowerExpr_grown value s).bind fun _ _ _ _ => grown_pure trivial
  | ret value =>
    rw [lowerStmt]
    exact (lowerExpr_grown value s).bind fun o t _ ho => ⟨Grows.refl.ret o ho, trivial⟩

theorem lowerStmts_grown (stmts : List Stmt) (s : Session) : Grown s (fun _ _ => True) (lowerStmts stmts s) := by
  induction stmts generalizing s with
  | nil => exact grown_pure trivial
  | cons stmt stmts ih =>
    rw [lowerStmts]
    exact (lowerStmt_grown stmt s).bind fun _ t _ _ => ih t

theorem lowerStmt_ok {stmt : Stmt} {s t : Session} (h : lowerStmt stmt s = .ok () t) : Grows s t :=
  ((lowerStmt_grown stmt s).of_ok h).1

theorem lowerStmts_ok {stmts : List Stmt} {s t : Session} (h : lowerStmts stmts s = .ok () t) : Grows s t :=
  ((lowerStmts_grown stmts s).of_ok h).1

/-- A program that lowers is the code that a session of one call leaves. -/
theorem lowerUnit_eq_ok {config : Config} {name : String} {program : List Stmt} {u : CodeUnit}
    (h : (lowerUnit config name program).value = .ok u) :
    ∃ s, lowerStmts program (Session.start name config) = .ok () s ∧ s.code = u := by
  unfold lowerUnit at h
  cases hr : lowerStmts program (Session.start name config) with
  | ok a s =>
    rw [hr] at h
    cases h
    exact ⟨s, rfl, rfl⟩
  | error e s =>
    rw [hr] at h
    cases h

end ThreeAddress.Lowering
