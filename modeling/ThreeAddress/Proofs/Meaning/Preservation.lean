import ThreeAddress.Proofs.Lowering.Growth
import ThreeAddress.Proofs.Meaning.Machine
/-!
# Lowering preserves meaning

The code that lowering adds to a session is run on a machine whose slots hold the variables. For an expression it
leaves the value in the operand that the expression was lowered to, and it changes nothing that was there before: not
the slots, and not the temporaries that the supply had given (`Reached`). Operands lowered earlier therefore still hold
their values when the operation on them is run, which carries the induction over expressions (`lowerExpr_simulated`).
Statements follow by induction over the program; what is lowered behind a return is never run.
-/
namespace ThreeAddress.Meaning

open Source Code Lowering Session

universe u

variable {V W : Type u} {I : Interp V W}

/-! ## Operators -/

theorem ofCodeBinaryOp_lowerBinaryOp (op : Source.BinaryOp) :
    ofCodeBinaryOp I (lowerBinaryOp op) = ofBinaryOp I op := by
  cases op <;> rfl

theorem ofCodeUnaryOp_lowerUnaryOp (op : Source.UnaryOp) : ofCodeUnaryOp I (lowerUnaryOp op) = ofUnaryOp I op := by
  cases op <;> rfl

/-! ## Running what was added -/

/-- Running the instructions added between the sessions `s` and `t` takes the machine `m` to `m'`, whatever follows. -/
def Adds (I : Interp V W) (s t : Session) (m m' : Machine V W) : Prop :=
  ∃ code, t.code.instrs.toList = s.code.instrs.toList ++ code ∧ ∀ rest, m.run I (code ++ rest) = m'.run I rest

theorem Adds.refl (s : Session) (m : Machine V W) : Adds I s s m m := ⟨[], by simp, fun _ => rfl⟩

theorem Adds.trans {s t u : Session} {m₀ m₁ m₂ : Machine V W} (h₁ : Adds I s t m₀ m₁) (h₂ : Adds I t u m₁ m₂) :
    Adds I s u m₀ m₂ := by
  obtain ⟨code₁, hcode₁, hrun₁⟩ := h₁
  obtain ⟨code₂, hcode₂, hrun₂⟩ := h₂
  refine ⟨code₁ ++ code₂, by rw [hcode₂, hcode₁, List.append_assoc], fun rest => ?_⟩
  rw [List.append_assoc, hrun₁, hrun₂]

theorem adds_assign {s : Session} {m : Machine V W} {target : Target} {source : Operand} {v : V} {w : W}
    (h : evalOperand I m source m.world = some (v, w)) :
    Adds I s (s.withInstr (.assign target source)) m (m.write target v w) := by
  refine ⟨[.assign target source], toList_instrs_withInstr s _, fun rest => ?_⟩
  rw [List.singleton_append, Machine.run, h]
  rfl

/-- On the way from `s` to `t` the machine keeps its slots and the temporaries given before. -/
structure Reached (I : Interp V W) (s t : Session) (m m' : Machine V W) : Prop where
  adds : Adds I s t m m'
  temps : ∀ t : Temp, t.id ≤ s.temps.allocated → m'.temps t = m.temps t
  slots : m'.slots = m.slots

theorem Reached.refl (s : Session) (m : Machine V W) : Reached I s s m m := ⟨.refl s m, fun _ _ => rfl, rfl⟩

theorem Reached.trans {s t u : Session} {m₀ m₁ m₂ : Machine V W} (h₁ : Reached I s t m₀ m₁) (hst : Continues s t)
    (h₂ : Reached I t u m₁ m₂) : Reached I s u m₀ m₂ where
  adds := h₁.adds.trans h₂.adds
  temps x hx := (h₂.temps x (Nat.le_trans hx hst.temps)).trans (h₁.temps x hx)
  slots := h₂.slots.trans h₁.slots

theorem reached_withName (s : Session) (name : String) (m : Machine V W) : Reached I s (s.withName name) m m :=
  ⟨⟨[], by simp [withName, CodeUnit.intern], fun _ => rfl⟩, fun _ _ => rfl, rfl⟩

/-- An operation is run and named by a fresh temporary. -/
theorem reached_withTemp {s : Session} {m : Machine V W} {source : Operand} {v : V} {w : W}
    (h : evalOperand I m source m.world = some (v, w)) :
    Reached I s (s.withTemp source) m (m.write (.temp s.temps.fresh.1) v w) where
  adds := adds_assign (s := { s with temps := s.temps.fresh.2 }) h
  temps t ht := by
    have hne : t ≠ s.temps.fresh.1 := by
      rintro rfl
      rw [TempSupply.id_fresh] at ht
      omega
    simp [Machine.write, hne]
  slots := rfl

/-! ## Operands that hold a value -/

def Holds (I : Interp V W) (m : Machine V W) (o : Operand) (v : V) : Prop := ∀ w, evalOperand I m o w = some (v, w)

def HoldAll (I : Interp V W) (m : Machine V W) (os : List Operand) (vs : List V) : Prop :=
  ∀ w, evalOperands I m os w = some (vs, w)

/-- An operand that could be read keeps its value. -/
theorem evalOperand_reached {s t : Session} {m m' : Machine V W} {o : Operand} (hr : s.Readable o)
    (h : Reached I s t m m') (w : W) : evalOperand I m' o w = evalOperand I m o w := by
  cases o with
  | const value => rfl
  | temp x =>
    have hx : x.id ≤ s.temps.allocated := hr.given x (by simp)
    rw [evalOperand, evalOperand, h.temps x hx]
  | var v => rw [evalOperand, evalOperand, h.slots]
  | func name => rfl
  | element | binary | unary | call => cases hr.simple

theorem Holds.reached {s t : Session} {m m' : Machine V W} {o : Operand} {v : V} (hv : Holds I m o v)
    (hr : s.Readable o) (h : Reached I s t m m') : Holds I m' o v := by
  intro w
  rw [evalOperand_reached hr h, hv]

theorem holds_fresh (m : Machine V W) (t : Temp) (v : V) (w : W) : Holds I (m.write (.temp t) v w) (.temp t) v := by
  intro w'
  simp [evalOperand, Machine.write]

theorem Holds.cons {m : Machine V W} {o : Operand} {os : List Operand} {v : V} {vs : List V} (hv : Holds I m o v)
    (hvs : HoldAll I m os vs) : HoldAll I m (o :: os) (v :: vs) := by
  intro w
  rw [evalOperands, hv w]
  simp [hvs w]

/-! ## Expressions -/

theorem slot_of_intern {s : Session} {name : String} {table : VarTable} (hd : table.Valid)
    (h : (s.withName name).code.vars.toList <+: table.toList) :
    table.names[(s.code.intern name).1.slot]? = some name := by
  have hmem := h.subset (VarTable.mem_toList_intern s.code.vars name)
  exact (hd.getElem?_names hmem).trans (congrArg some (VarTable.name_intern s.code.vars name))

theorem convertIndex_one {index : Expr} (h : ∀ value, index ≠ .literal value) (v : V) (w : W) :
    convertIndex I .one index v w = some (I.subtract v (I.const (.int 1)) w) := by
  cases index with
  | literal value => exact absurd rfl (h value)
  | _ => rfl

/-- The converted index holds the position that the index stands for. -/
theorem toZeroBased_reached {target index : Expr} {s t u : Session} {position o : Operand} {m : Machine V W} {v : V}
    (hi : lowerExpr index s = .ok position t) (hz : toZeroBased target position t = .ok o u)
    (hv : Holds I m position v) :
    ∃ v' m', convertIndex I t.config.indexBase index v m.world = some (v', m'.world) ∧ Reached I t u m m' ∧
      Holds I m' o v' := by
  cases hb : t.config.indexBase with
  | zero =>
    rw [toZeroBased_zero hb] at hz
    cases hz
    exact ⟨v, m, rfl, .refl t m, hv⟩
  | one =>
    -- the operand is a constant exactly if the index is a literal, so code and program decide alike
    by_cases hl : ∃ value, index = .literal value
    · obtain ⟨value, rfl⟩ := hl
      rw [lowerExpr] at hi
      cases hi
      rw [toZeroBased_one_const hb] at hz
      cases value with
      | int k =>
        by_cases hk : k = Int64.minValue
        · simp [shiftConstant, hk] at hz
        · simp only [shiftConstant, hk, if_false] at hz
          cases hz
          exact ⟨_, m, by simp [convertIndex, hk], .refl _ m, fun _ => rfl⟩
      | double d =>
        cases hz
        exact ⟨_, m, rfl, .refl _ m, fun _ => rfl⟩
      | str _ | logical _ | null =>
        cases hz
        exact ⟨v, m, rfl, .refl _ m, hv⟩
    · have hl' := not_exists.1 hl
      rw [toZeroBased_one hb target (ne_const_of_lowerExpr hi hl')] at hz
      cases hz
      refine ⟨_, _, convertIndex_one hl' v m.world, reached_withTemp ?_, holds_fresh m _ _ _⟩
      rw [evalOperand, hv m.world]
      rfl

/-- With all its operands at hand an operation is run last and its answer named. -/
theorem Reached.withTemp {s t : Session} {m₀ m : Machine V W} {source : Operand} {answer : V × W}
    (hr : Reached I s t m₀ m) (hst : Continues s t) (h : evalOperand I m source m.world = some answer) :
    ∃ m', m'.world = answer.2 ∧ Reached I s (t.withTemp source) m₀ m' ∧ Holds I m' (.temp t.temps.fresh.1) answer.1 :=
  ⟨m.write (.temp t.temps.fresh.1) answer.1 answer.2, rfl, hr.trans hst (reached_withTemp h), holds_fresh m _ _ _⟩

/-- The values of an expression and of the operand it is lowered to agree, and so do the worlds after them. -/
def Simulated (I : Interp V W) (table : VarTable) (env : String → V) (e : Expr) : Prop :=
  ∀ ⦃s t : Session⦄ ⦃o : Operand⦄ ⦃m : Machine V W⦄, lowerExpr e s = .ok o t →
    t.code.vars.toList <+: table.toList → m.slots = Machine.load table env →
      ∃ v m', evalExpr I s.config.indexBase env e m.world = some (v, m'.world) ∧ Reached I s t m m' ∧ Holds I m' o v

theorem lowerArgs_reached {table : VarTable} {env : String → V} {args : List Expr}
    (h : ∀ arg ∈ args, Simulated I table env arg) {s t : Session} {os : List Operand} {m : Machine V W}
    (hl : lowerArgs args s = .ok os t) (hn : t.code.vars.toList <+: table.toList)
    (hm : m.slots = Machine.load table env) :
    ∃ vs m', evalArgs I s.config.indexBase env args m.world = some (vs, m'.world) ∧ Reached I s t m m' ∧
      HoldAll I m' os vs := by
  induction args generalizing s os m with
  | nil =>
    rw [lowerArgs] at hl
    cases hl
    exact ⟨[], m, rfl, .refl _ m, fun _ => rfl⟩
  | cons arg args ih =>
    simp only [lowerArgs, bind_eq_ok] at hl
    obtain ⟨o, s₁, ho, os', s₂, hos, hp⟩ := hl
    cases hp
    have h₁ := lowerExpr_ok ho
    have h₂ := lowerArgs_ok hos
    obtain ⟨v, m₁, hv, hr₁, hh₁⟩ := h arg List.mem_cons_self ho (h₂.1.continues.vars.trans hn) hm
    obtain ⟨vs, m₂, hvs, hr₂, hh₂⟩ :=
      ih (fun a ha => h a (List.mem_cons_of_mem _ ha)) hos (hr₁.slots.trans hm)
    rw [h₁.1.continues.config] at hvs
    refine ⟨v :: vs, m₂, ?_, hr₁.trans h₁.1.continues hr₂, (hh₁.reached h₁.2 hr₂).cons hh₂⟩
    rw [evalArgs, hv]
    simp [hvs]

section
variable {table : VarTable} {env : String → V}

theorem simulated_ident (hd : table.Valid) (name : String) : Simulated I table env (.ident name) := by
  intro s t o m h hn hm
  simp only [lowerExpr, bind_eq_ok, intern_apply] at h
  obtain ⟨v, s₁, hi, hp⟩ := h
  cases hi
  cases hp
  refine ⟨env name, m, rfl, reached_withName s name m, fun w => ?_⟩
  rw [evalOperand, hm, Machine.load, slot_of_intern hd hn]
  rfl

theorem Simulated.binary {left right : Expr} (op : Source.BinaryOp) (hleft : Simulated I table env left)
    (hright : Simulated I table env right) : Simulated I table env (.binary op left right) := by
  intro s t o m h hn hm
  simp only [lowerExpr, bind_eq_ok, nameByTemp_apply] at h
  obtain ⟨lhs, s₁, hl, rhs, s₂, hr, hp⟩ := h
  cases hp
  have h₁ := lowerExpr_ok hl
  have h₂ := lowerExpr_ok hr
  obtain ⟨a, m₁, ha, hr₁, hh₁⟩ := hleft hl (h₂.1.continues.vars.trans hn) hm
  obtain ⟨b, m₂, hb, hr₂, hh₂⟩ := hright hr hn (hr₁.slots.trans hm)
  -- the code of the right operand was run in between, and `lhs` still holds the left value
  have hop : evalOperand I m₂ (.binary (lowerBinaryOp op) lhs rhs) m₂.world =
      some (ofBinaryOp I op a b m₂.world) := by
    rw [evalOperand, hh₁.reached h₁.2 hr₂ m₂.world]
    simp [hh₂ m₂.world, ofCodeBinaryOp_lowerBinaryOp]
  obtain ⟨m₃, hw, hr₃, hh₃⟩ := (hr₁.trans h₁.1.continues hr₂).withTemp (h₁.1.trans h₂.1).continues hop
  refine ⟨_, m₃, ?_, hr₃, hh₃⟩
  rw [h₁.1.continues.config] at hb
  rw [evalExpr, ha]
  simp [hb, hw]

theorem Simulated.unary {operand : Expr} (op : Source.UnaryOp) (hoperand : Simulated I table env operand) :
    Simulated I table env (.unary op operand) := by
  intro s t o m h hn hm
  simp only [lowerExpr, bind_eq_ok, nameByTemp_apply] at h
  obtain ⟨x, s₁, hx, hp⟩ := h
  cases hp
  obtain ⟨a, m₁, ha, hr₁, hh₁⟩ := hoperand hx hn hm
  have hop : evalOperand I m₁ (.unary (lowerUnaryOp op) x) m₁.world = some (ofUnaryOp I op a m₁.world) := by
    rw [evalOperand, hh₁ m₁.world]
    simp [ofCodeUnaryOp_lowerUnaryOp]
  obtain ⟨m₂, hw, hr₂, hh₂⟩ := hr₁.withTemp (lowerExpr_ok hx).1.continues hop
  refine ⟨_, m₂, ?_, hr₂, hh₂⟩
  rw [evalExpr, ha]
  simp [hw]

theorem Simulated.subscript {target index : Expr} (htarget : Simulated I table env target)
    (hindex : Simulated I table env index) : Simulated I table env (.subscript target [index]) := by
  intro s t o m h hn hm
  simp only [lowerExpr, bind_eq_ok, nameByTemp_apply] at h
  obtain ⟨vector, s₁, ht, position, s₂, hi, zeroBased, s₃, hz, hp⟩ := h
  cases hp
  have h₁ := lowerExpr_ok ht
  have h₂ := lowerExpr_ok hi
  have h₃ := (toZeroBased_grown target h₂.2).of_ok hz
  have hn₂ := h₃.1.continues.vars.trans hn
  obtain ⟨a, m₁, ha, hr₁, hh₁⟩ := htarget ht (h₂.1.continues.vars.trans hn₂) hm
  obtain ⟨b, m₂, hb, hr₂, hh₂⟩ := hindex hi hn₂ (hr₁.slots.trans hm)
  obtain ⟨c, m₃, hc, hr₃, hh₃⟩ := toZeroBased_reached hi hz hh₂
  -- the vector outlives both the code of the index and that of its conversion
  have hvector := (hh₁.reached h₁.2 hr₂).reached (h₁.2.mono h₂.1.continues) hr₃
  have hop : evalOperand I m₃ (.element vector zeroBased) m₃.world = some (I.element a c m₃.world) := by
    rw [evalOperand, hvector m₃.world]
    simp [hh₃ m₃.world]
  have hr := (hr₁.trans h₁.1.continues hr₂).trans (h₁.1.trans h₂.1).continues hr₃
  obtain ⟨m₄, hw, hr₄, hh₄⟩ := hr.withTemp ((h₁.1.trans h₂.1).trans h₃.1).continues hop
  refine ⟨_, m₄, ?_, hr₄, hh₄⟩
  rw [h₁.1.continues.config] at hb
  rw [h₂.1.continues.config, h₁.1.continues.config] at hc
  rw [evalExpr, ha]
  simp [hb, hc, hw]

theorem simulated_call (function : String) {args : List Expr} (hargs : ∀ arg ∈ args, Simulated I table env arg) :
    Simulated I table env (.call function args) := by
  intro s t o m h hn hm
  simp only [lowerExpr, bind_eq_ok, nameByTemp_apply] at h
  obtain ⟨operands, s₁, ha, hp⟩ := h
  cases hp
  obtain ⟨vs, m₁, hvs, hr₁, hh₁⟩ := lowerArgs_reached hargs ha hn hm
  have hop : evalOperand I m₁ (.call (.func function) operands) m₁.world =
      some (I.callNamed function vs m₁.world) := by
    rw [evalOperand, hh₁ m₁.world]
    rfl
  obtain ⟨m₂, hw, hr₂, hh₂⟩ := hr₁.withTemp (lowerArgs_ok ha).1.continues hop
  refine ⟨_, m₂, ?_, hr₂, hh₂⟩
  rw [evalExpr, hvs]
  simp [hw]

end

/-- Every expression is simulated by what it is lowered to. -/
theorem lowerExpr_simulated {table : VarTable} (hd : table.Valid) (env : String → V) (e : Expr) :
    Simulated I table env e := by
  induction e using Expr.inductionOn with
  | literal value =>
    intro s t o m h _ _
    rw [lowerExpr] at h
    cases h
    exact ⟨_, m, rfl, .refl s m, fun _ => rfl⟩
  | ident name => exact simulated_ident hd name
  | binary op left right ihl ihr => exact ihl.binary op ihr
  | unary op operand ih => exact ih.unary op
  | oneIndex target index iht ihi => exact iht.subscript ihi
  | noIndex | manyIndices =>
    intro s t o m h
    rw [lowerExpr] at h
    cases h
  | call function args ih => exact simulated_call function ih

/-! ## Statements -/

/-- A slot of its own makes an assignment to the slot one to the name. -/
theorem load_assignVar {table : VarTable} (hd : table.names.Nodup) {slot : Nat} {name : String}
    (hs : table.names[slot]? = some name) (env : String → V) (v : V) :
    (fun k => if k = slot then some v else Machine.load table env k) = Machine.load table (assignVar env name v) := by
  funext k
  by_cases hk : k = slot
  · subst hk
    simp [Machine.load, hs, assignVar]
  · cases hother : table.names[k]? with
    | none => simp [Machine.load, hk, hother]
    | some other =>
      -- no name has two slots
      have hne : other ≠ name := by
        rintro rfl
        have hlt := (List.getElem?_eq_some_iff.1 hother).1
        exact hk ((List.getElem?_inj hlt hd).1 (hother.trans hs.symm))
      simp [Machine.load, hk, hother, assignVar, hne]

/-- A statement that is no return has taken the variables from `env` to `env'`, and the code added for it has taken the
machine along. -/
structure Advanced (I : Interp V W) (table : VarTable) (stmt : Stmt) (s t : Session) (env env' : String → V)
    (m m' : Machine V W) : Prop where
  source : ∀ stmts, runStmts I s.config.indexBase (stmt :: stmts) env m.world =
    runStmts I s.config.indexBase stmts env' m'.world
  adds : Adds I s t m m'
  slots : m'.slots = Machine.load table env'
  others : ∀ name, name ∉ table.names → env' name = env name

section
variable {table : VarTable} {s t : Session} {env : String → V} {m : Machine V W}

theorem lowerStmt_assign_advanced (hd : table.Valid) {name : String} {value : Expr}
    (h : lowerStmt (.assign name value) s = .ok () t) (hn : t.code.vars.toList <+: table.toList)
    (hm : m.slots = Machine.load table env) :
    ∃ env' m', Advanced I table (.assign name value) s t env env' m m' := by
  simp only [lowerStmt, bind_eq_ok, intern_apply, emit_apply] at h
  obtain ⟨o, s₁, he, v, s₂, hi, hp⟩ := h
  cases hi
  cases hp
  obtain ⟨a, m₁, ha, hr, hh⟩ :=
    lowerExpr_simulated (I := I) hd env value he ((continues_withName s₁ name).vars.trans hn) hm
  have hslot := slot_of_intern (s := s₁) hd hn
  refine ⟨assignVar env name a, m₁.write (.var (s₁.code.intern name).1) a m₁.world, ?_, ?_, ?_, ?_⟩
  · intro stmts
    rw [runStmts, ha]
    rfl
  · exact hr.adds.trans ((reached_withName s₁ name m₁).adds.trans (adds_assign (hh m₁.world)))
  · rw [← load_assignVar hd.nodup hslot env a, ← hm, ← hr.slots]
    rfl
  · intro other hother
    have hne : other ≠ name := by
      rintro rfl
      exact hother (List.mem_of_getElem? hslot)
    rw [assignVar, if_neg hne]

theorem lowerStmt_expr_advanced (hd : table.Valid) {value : Expr} (h : lowerStmt (.expr value) s = .ok () t)
    (hn : t.code.vars.toList <+: table.toList) (hm : m.slots = Machine.load table env) :
    ∃ m', Advanced I table (.expr value) s t env env m m' := by
  simp only [lowerStmt, bind_eq_ok] at h
  obtain ⟨o, s₁, he, hp⟩ := h
  cases hp
  obtain ⟨a, m₁, ha, hr, -⟩ := lowerExpr_simulated (I := I) hd env value he hn hm
  refine ⟨m₁, ?_, hr.adds, hr.slots.trans hm, fun _ _ => rfl⟩
  intro stmts
  rw [runStmts, ha]
  rfl

/-- The code between `s` and `t` does on the machine what the statements do, and they leave all names alone that are
not in the table. -/
def Runs (I : Interp V W) (table : VarTable) (stmts : List Stmt) (s t : Session) (env : String → V)
    (m : Machine V W) : Prop :=
  ∃ halt code, runStmts I s.config.indexBase stmts env m.world = some halt ∧
    t.code.instrs.toList = s.code.instrs.toList ++ code ∧
    m.run I code = some ⟨halt.returned, Machine.load table halt.memory, halt.world⟩ ∧
    ∀ name, name ∉ table.names → halt.memory name = env name

theorem Advanced.runs {stmt : Stmt} {stmts : List Stmt} {u : Session} {env' : String → V} {m' : Machine V W}
    (h : Advanced I table stmt s t env env' m m') (hst : Continues s t) (hr : Runs I table stmts t u env' m') :
    Runs I table (stmt :: stmts) s u env m := by
  obtain ⟨code, hcode, hrun⟩ := h.adds
  obtain ⟨halt, rest, hhalt, hrest, hrun', hout⟩ := hr
  refine ⟨halt, code ++ rest, ?_, ?_, ?_, ?_⟩
  · rw [h.source, ← hst.config, hhalt]
  · rw [hrest, hcode, List.append_assoc]
  · rw [hrun, hrun']
  · intro name hname
    rw [hout name hname, h.others name hname]

theorem lowerStmt_ret_runs (hd : table.Valid) {value : Expr} {u : Session} (h : lowerStmt (.ret value) s = .ok () t)
    (htu : Continues t u) (hn : t.code.vars.toList <+: table.toList) (hm : m.slots = Machine.load table env)
    (stmts : List Stmt) : Runs I table (.ret value :: stmts) s u env m := by
  simp only [lowerStmt, bind_eq_ok, emit_apply] at h
  obtain ⟨o, s₁, he, hp⟩ := h
  cases hp
  obtain ⟨a, m₁, ha, hr, hh⟩ := lowerExpr_simulated (I := I) hd env value he hn hm
  obtain ⟨code, hcode, hrun⟩ := hr.adds
  -- the statements behind the return were lowered too, but neither side comes to them
  obtain ⟨dead, hdead⟩ := htu.instrs
  refine ⟨⟨some a, env, m₁.world⟩, code ++ .ret o :: dead, ?_, ?_, ?_, fun _ _ => rfl⟩
  · rw [runStmts, ha]
    rfl
  · rw [← hdead, toList_instrs_withInstr, hcode]
    simp
  · rw [hrun, Machine.run, hh m₁.world, hr.slots, hm]
    rfl

theorem lowerStmts_runs (hd : table.Valid) {stmts : List Stmt} (h : lowerStmts stmts s = .ok () t)
    (hn : t.code.vars.toList <+: table.toList) (hm : m.slots = Machine.load table env) :
    Runs I table stmts s t env m := by
  induction stmts generalizing s env m with
  | nil =>
    rw [lowerStmts] at h
    cases h
    exact ⟨⟨none, env, m.world⟩, [], rfl, by simp, by rw [Machine.run, hm], fun _ _ => rfl⟩
  | cons stmt stmts ih =>
    simp only [lowerStmts, bind_eq_ok] at h
    obtain ⟨_, s₁, hs, hrest⟩ := h
    have hst := (lowerStmt_ok hs).continues
    have htu := (lowerStmts_ok hrest).continues
    have hn₁ := htu.vars.trans hn
    cases stmt with
    | assign name value =>
      obtain ⟨env', m', ha⟩ := lowerStmt_assign_advanced (I := I) hd hs hn₁ hm
      exact ha.runs hst (ih hrest ha.slots)
    | expr value =>
      obtain ⟨m', ha⟩ := lowerStmt_expr_advanced (I := I) hd hs hn₁ hm
      exact ha.runs hst (ih hrest ha.slots)
    | ret value => exact lowerStmt_ret_runs hd hs htu hn₁ hm stmts

end

/-- Lowering preserves meaning: for all values, worlds and meanings of the operations, a program that lowers has a
meaning, and its code run on a machine without temporaries returns the same value, leaves the same world and holds in
the slots of its table the variables as the program leaves them. All other variables are as they were. -/
theorem lowerUnit_preserves_meaning (I : Interp V W) (config : Config) (name : String) (program : List Stmt)
    (env : String → V) (w : W) (u : CodeUnit) (h : (lowerUnit config name program).value = .ok u) :
    ∃ halt : Halt (String → V) V W,
      runStmts I config.indexBase program env w = some halt ∧
      (Machine.start u.vars env w).run I u.instrs.toList =
        some ⟨halt.returned, Machine.load u.vars halt.memory, halt.world⟩ ∧
      ∀ other, other ∉ u.vars.names → halt.memory other = env other := by
  obtain ⟨s, hs, rfl⟩ := lowerUnit_eq_ok h
  have hd : s.code.vars.Valid := (lowerStmts_ok hs).valid_vars VarTable.valid_empty
  obtain ⟨halt, code, hhalt, hcode, hrun, hout⟩ :=
    lowerStmts_runs (I := I) (m := Machine.start s.code.vars env w) hd hs List.prefix_rfl rfl
  refine ⟨halt, hhalt, ?_, hout⟩
  rw [hcode]
  exact hrun

/-- `x = x[x]; return x[2.5]; y`, with a statement behind the return. -/
def subscriptThenReturn : List Stmt :=
  [.assign "x" (.subscript (.ident "x") [.ident "x"]),
    .ret (.subscript (.ident "x") [.literal (.double ⟨0x4004000000000000⟩)]), .expr (.ident "y")]

/-- The one-based indices `x` and `2.5` have become `x - 1` and `1.5`. -/
def subscriptThenReturnUnit : CodeUnit where
  name := "main"
  instrs := #[.assign (.temp ⟨1⟩) (.binary .sub (.var ⟨"x", 0⟩) (.const (.int 1))),
    .assign (.temp ⟨2⟩) (.element (.var ⟨"x", 0⟩) (.temp ⟨1⟩)),
    .assign (.var ⟨"x", 0⟩) (.temp ⟨2⟩),
    .assign (.temp ⟨3⟩) (.element (.var ⟨"x", 0⟩) (.const (.double ⟨0x3FF8000000000000⟩))),
    .ret (.temp ⟨3⟩)]
  vars := ⟨[⟨"x", 0⟩, ⟨"y", 1⟩]⟩

theorem lowerUnit_preserves_meaning_counting :
    (lowerUnit { indexBase := .one } "main" subscriptThenReturn).value = .ok subscriptThenReturnUnit ∧
    ∃ halt : Halt (String → Nat) Nat Nat,
      runStmts counting .one subscriptThenReturn (fun _ => 0) 0 = some halt ∧
      (Machine.start subscriptThenReturnUnit.vars (fun _ => 0) 0).run counting
          subscriptThenReturnUnit.instrs.toList =
        some ⟨halt.returned, Machine.load subscriptThenReturnUnit.vars halt.memory, halt.world⟩ ∧
      ∀ other, other ∉ subscriptThenReturnUnit.vars.names → halt.memory other = 0 := by
  have hlowered :
      (lowerUnit { indexBase := .one } "main" subscriptThenReturn).value = .ok subscriptThenReturnUnit := by
    have hsome : (lowerUnit { indexBase := .one } "main" subscriptThenReturn).value.toOption =
        some subscriptThenReturnUnit := by decide +kernel
    generalize (lowerUnit { indexBase := .one } "main" subscriptThenReturn).value = value at hsome ⊢
    cases value with
    | ok v => exact congrArg Except.ok (Option.some.inj hsome)
    | error rejection => cases hsome
  exact ⟨hlowered, lowerUnit_preserves_meaning counting { indexBase := .one } "main" subscriptThenReturn
    (fun _ => 0) 0 subscriptThenReturnUnit hlowered⟩

end ThreeAddress.Meaning
