import ThreeAddress.Proofs.Lowering.Accepted
/-!
# Variables in the order of their first use

Lowering interns every name where it stands in the program, whether or not an instruction comes of it, so that the
table is the list of all occurrences without its repetitions (`vars_lowerExpr`). Code speaks only of variables that were
in the table when it was emitted (`lowerExpr_listed`), and the table never moves one, so that each is found in the
finished table under its slot.
-/
namespace ThreeAddress.Source

def Expr.ident? : Expr → Option String
  | .ident name => some name
  | _ => none

/-- The names in an expression, from left to right and as often as they occur. A called function is no variable. -/
def Expr.identifiers (e : Expr) : List String := e.nodes.filterMap Expr.ident?

/-- An assignment comes to its name after its value. -/
def Stmt.identifiers : Stmt → List String
  | .assign name value => value.identifiers ++ [name]
  | .expr value => value.identifiers
  | .ret value => value.identifiers

def programIdentifiers (program : List Stmt) : List String := program.flatMap Stmt.identifiers

namespace Expr

theorem identifiers_binary (op : BinaryOp) (left right : Expr) :
    (binary op left right).identifiers = left.identifiers ++ right.identifiers := by
  rw [identifiers, nodes, List.filterMap_cons_none rfl, List.filterMap_append]
  rfl

theorem identifiers_unary (op : UnaryOp) (operand : Expr) : (unary op operand).identifiers = operand.identifiers := by
  rw [identifiers, nodes, List.filterMap_cons_none rfl]
  rfl

theorem identifiers_subscript (target : Expr) (indices : List Expr) :
    (subscript target indices).identifiers = target.identifiers ++ indices.flatMap identifiers := by
  rw [identifiers, nodes, List.filterMap_cons_none rfl, List.filterMap_append, nodesAll_eq_flatMap,
    List.filterMap_flatMap]
  rfl

theorem identifiers_call (function : String) (args : List Expr) :
    (call function args).identifiers = args.flatMap identifiers := by
  rw [identifiers, nodes, List.filterMap_cons_none rfl, nodesAll_eq_flatMap, List.filterMap_flatMap]
  rfl

end Expr

end ThreeAddress.Source

namespace ThreeAddress.Code

/-- The variable is assigned, or stands somewhere in the operand. -/
def Instr.Mentions (i : Instr) (v : Variable) : Prop := i.target? = some (.var v) ∨ (Operand.var v).Occurs i.source

/-- All variables of the operand are entries of the table. -/
def Operand.Listed (table : VarTable) (o : Operand) : Prop := ∀ v, (Operand.var v).Occurs o → v ∈ table.toList

namespace Operand

variable {table : VarTable}

theorem Listed.mono {o : Operand} {more : VarTable} (h : Listed table o) (hn : table.toList <+: more.toList) :
    Listed more o :=
  fun v hv => hn.subset (h v hv)

theorem listed_var {v : Variable} (h : v ∈ table.toList) : Listed table (.var v) := by
  intro w hw
  cases hw
  exact h

theorem listed_const (value : Constant) : Listed table (.const value) := by
  intro v hv
  cases hv

theorem listed_temp (t : Temp) : Listed table (.temp t) := by
  intro v hv
  cases hv

theorem listed_func (name : String) : Listed table (.func name) := by
  intro v hv
  cases hv

theorem listed_of_isComposite {o : Operand} (hc : o.isComposite = true) (h : ∀ sub ∈ o.subOperands, Listed table sub) :
    Listed table o := by
  intro v hv
  rcases occurs_iff.1 hv with rfl | ⟨sub, hsub, hv⟩
  · cases hc
  · exact h sub hsub v hv

end Operand

end ThreeAddress.Code

namespace ThreeAddress.Lowering

open Source Code Session

/-! ## The table -/

theorem vars_converted {index : Expr} {position zeroBased : Operand} {s t : Session}
    (h : Converted index position s zeroBased t) : t.code.vars = s.code.vars := by
  cases h <;> rfl

theorem vars_eachLowered {args : List Expr} {s t : Session} {os : List Operand}
    (h : EachLowered (fun e s _ t => t.code.vars = s.code.vars.internAll e.identifiers) args s os t) :
    t.code.vars = s.code.vars.internAll (args.flatMap Expr.identifiers) := by
  induction h with
  | nil s => rfl
  | cons _ hp _ ih => rw [ih, hp, List.flatMap_cons, VarTable.internAll_append]

theorem vars_lowerExpr {e : Expr} {s t : Session} {o : Operand} (h : lowerExpr e s = .ok o t) :
    t.code.vars = s.code.vars.internAll e.identifiers := by
  apply lowerExpr_inductionOn (P := fun e s _ t => t.code.vars = s.code.vars.internAll e.identifiers) h
  case literal =>
    intro value s
    rfl
  case ident =>
    intro name s
    rfl
  case binary =>
    intro op left right s lhs u rhs v _ _ ihl ihr
    rw [Expr.identifiers_binary, VarTable.internAll_append, ← ihl, ← ihr]
    rfl
  case unary =>
    intro op operand s x u _ ih
    rw [Expr.identifiers_unary, ← ih]
    rfl
  case subscript =>
    intro target index s vector u position v zeroBased w _ _ hz iht ihi
    rw [Expr.identifiers_subscript, List.flatMap_singleton, VarTable.internAll_append, ← iht, ← ihi, ← vars_converted hz]
    rfl
  case call =>
    intro function args s operands u ha
    rw [Expr.identifiers_call, ← vars_eachLowered ha]
    rfl

theorem vars_withStmt {stmt : Stmt} {s t : Session} {o : Operand} (h : lowerExpr stmt.value s = .ok o t) :
    (t.withStmt o stmt).code.vars = s.code.vars.internAll stmt.identifiers := by
  have hvalue := vars_lowerExpr h
  cases stmt with
  | assign name value =>
    rw [Stmt.identifiers, VarTable.internAll_append]
    exact congrArg (fun table => VarTable.internAll table [name]) hvalue
  | expr value => exact hvalue
  | ret value => exact hvalue

theorem vars_lowerStmts {program : List Stmt} {s t : Session} (h : lowerStmts program s = .ok () t) :
    t.code.vars = s.code.vars.internAll (programIdentifiers program) := by
  induction program generalizing s with
  | nil =>
    cases h
    rfl
  | cons stmt program ih =>
    obtain ⟨o, u, he, hrest⟩ := lowerStmts_cons_eq_ok_iff.1 h
    rw [ih hrest, vars_withStmt he, programIdentifiers, programIdentifiers, List.flatMap_cons,
      VarTable.internAll_append]

/-! ## The code -/

/-- Every variable that the code speaks of is an entry of the table. -/
def Session.Listed (s : Session) : Prop := ∀ i ∈ s.code.instrs.toList, ∀ v, i.Mentions v → v ∈ s.code.vars.toList

section
variable {s : Session}

theorem Session.Listed.withName (h : s.Listed) (name : String) : (s.withName name).Listed :=
  fun i hi v hv => (continues_withName s name).vars.subset (h i hi v hv)

theorem Session.Listed.withInstr (h : s.Listed) {i : Instr} (hi : ∀ v, i.Mentions v → v ∈ s.code.vars.toList) :
    (s.withInstr i).Listed := by
  intro j hj v hv
  rw [toList_instrs_withInstr, List.mem_append, List.mem_singleton] at hj
  rcases hj with hj | rfl
  · exact h j hj v hv
  · exact hi v hv

theorem Session.Listed.withTemp (h : s.Listed) {source : Operand} (hs : source.Listed s.code.vars) :
    (s.withTemp source).Listed := by
  refine Session.Listed.withInstr (s := { s with temps := s.temps.fresh.2 }) h ?_
  rintro v (hv | hv)
  · cases hv
  · exact hs v hv

/-- The temporary that an operation is named by has no variables, so that only its source counts. -/
theorem Session.Listed.fresh (h : s.Listed) {source : Operand} (hc : source.isComposite = true)
    (hsub : ∀ sub ∈ source.subOperands, sub.Listed s.code.vars) :
    (s.withTemp source).Listed ∧ (Operand.temp s.temps.fresh.1).Listed (s.withTemp source).code.vars :=
  ⟨h.withTemp (Operand.listed_of_isComposite hc hsub), Operand.listed_temp _⟩

end

/-- A step takes listed code to listed code and answers with a listed operand. -/
def KeepsListed (_ : Expr) (s : Session) (o : Operand) (t : Session) : Prop :=
  s.Listed → t.Listed ∧ o.Listed t.code.vars

theorem listed_converted {index : Expr} {position zeroBased : Operand} {s t : Session}
    (h : Converted index position s zeroBased t) (hs : s.Listed) (hp : position.Listed s.code.vars) :
    t.Listed ∧ zeroBased.Listed t.code.vars := by
  cases h with
  | kept => exact ⟨hs, hp⟩
  | folded => exact ⟨hs, Operand.listed_const _⟩
  | computed => exact hs.fresh rfl (by simp [Operand.subOperands, hp, Operand.listed_const])

theorem listed_eachLowered {args : List Expr} {s t : Session} {os : List Operand}
    (h : EachLowered KeepsListed args s os t) (hs : s.Listed) :
    t.Listed ∧ ∀ o ∈ os, o.Listed t.code.vars := by
  induction h with
  | nil s => exact ⟨hs, nofun⟩
  | cons _ hp hrest ih =>
    obtain ⟨hu, ho⟩ := hp hs
    obtain ⟨ht, hos⟩ := ih hu
    exact ⟨ht, List.forall_mem_cons.2 ⟨ho.mono hrest.continues.vars, hos⟩⟩

theorem lowerExpr_listed {e : Expr} {s t : Session} {o : Operand} (h : lowerExpr e s = .ok o t) :
    KeepsListed e s o t := by
  apply lowerExpr_inductionOn (P := KeepsListed) h
  case literal =>
    intro value s hs
    exact ⟨hs, Operand.listed_const value⟩
  case ident =>
    intro name s hs
    exact ⟨hs.withName name, Operand.listed_var (VarTable.mem_toList_intern s.code.vars name)⟩
  case binary =>
    intro op left right s lhs u rhs v _ hr ihl ihr hs
    obtain ⟨hu, hlhs⟩ := ihl hs
    obtain ⟨hv, hrhs⟩ := ihr hu
    have hlhs := hlhs.mono (lowerExpr_ok hr).1.continues.vars
    exact hv.fresh rfl (by simp [Operand.subOperands, hlhs, hrhs])
  case unary =>
    intro op operand s x u _ ih hs
    obtain ⟨hu, hx⟩ := ih hs
    exact hu.fresh rfl (by simp [Operand.subOperands, hx])
  case subscript =>
    intro target index s vector u position v zeroBased w _ hi hz iht ihi hs
    obtain ⟨hu, hvector⟩ := iht hs
    obtain ⟨hv, hposition⟩ := ihi hu
    obtain ⟨hw, hzero⟩ := listed_converted hz hv hposition
    have hvector := hvector.mono ((lowerExpr_ok hi).1.continues.trans hz.continues).vars
    exact hw.fresh rfl (by simp [Operand.subOperands, hvector, hzero])
  case call =>
    intro function args s operands u ha hs
    obtain ⟨hu, hargs⟩ := listed_eachLowered ha hs
    exact hu.fresh rfl (List.forall_mem_cons.2 ⟨Operand.listed_func function, hargs⟩)

theorem listed_withStmt {s : Session} {o : Operand} (hs : s.Listed) (ho : o.Listed s.code.vars) (stmt : Stmt) :
    (s.withStmt o stmt).Listed := by
  cases stmt with
  | assign name value =>
    refine (hs.withName name).withInstr ?_
    rintro v (hv | hv)
    · cases hv
      exact VarTable.mem_toList_intern s.code.vars name
    · exact ho.mono (continues_withName s name).vars v hv
  | expr value => exact hs
  | ret value =>
    refine hs.withInstr ?_
    rintro v (hv | hv)
    · cases hv
    · exact ho v hv

theorem lowerStmts_listed {program : List Stmt} {s t : Session} (h : lowerStmts program s = .ok () t) (hs : s.Listed) :
    t.Listed := by
  induction program generalizing s with
  | nil =>
    cases h
    exact hs
  | cons stmt program ih =>
    obtain ⟨o, u, he, hrest⟩ := lowerStmts_cons_eq_ok_iff.1 h
    obtain ⟨hu, ho⟩ := lowerExpr_listed he hs
    exact ih hrest (listed_withStmt hu ho stmt)

/-! ## The finished unit -/

/-- The variables of a lowered program are the names that occur in it, each listed once, where it occurs first, with the
next slot. All variables that its code speaks of are among them, so that two of them share a slot exactly if they share
a name. -/
theorem vars_in_first_use_order (config : Config) (name : String) (program : List Stmt) (u : CodeUnit)
    (h : (lowerUnit config name program).value = .ok u) :
    u.vars.toList = (programIdentifiers program).eraseDups.zipIdx.map (fun (name, slot) => ⟨name, slot⟩) ∧
    (∀ i ∈ u.instrs.toList, ∀ v, i.Mentions v → v ∈ u.vars.toList) ∧
    ∀ i ∈ u.instrs.toList, ∀ j ∈ u.instrs.toList, ∀ v w, i.Mentions v → j.Mentions w →
      (v.slot = w.slot ↔ v.name = w.name) := by
  obtain ⟨s, hs, rfl⟩ := lowerUnit_eq_ok h
  have hnames : s.code.vars.names = (programIdentifiers program).eraseDups := by
    rw [vars_lowerStmts hs]
    exact VarTable.names_internAll [] _ rfl
  have hlisted := lowerStmts_listed hs nofun
  have hvalid := (lowerStmts_ok hs).valid_vars VarTable.valid_empty
  refine ⟨?_, hlisted, ?_⟩
  · rw [hvalid.toList_eq, hnames]
  · intro i hi j hj v w hv hw
    exact hvalid.slot_eq_iff (hlisted i hi v hv) (hlisted j hj w hw)

/-- A name that is read before it is assigned, one that is only passed on, and a function that is no variable. -/
theorem vars_in_first_use_order_sum :
    let program : List Stmt :=
      [.assign "y" (.binary .add (.ident "x") (.ident "y")), .ret (.call "f" [.ident "x", .ident "z"])]
    let table : List Variable := [⟨"x", 0⟩, ⟨"y", 1⟩, ⟨"z", 2⟩]
    ∃ u, (lowerUnit {} "main" program).value = .ok u ∧ u.vars.toList = table ∧
      ∀ i ∈ u.instrs.toList, ∀ v, i.Mentions v → v ∈ table := by
  intro program table
  obtain ⟨u, hu⟩ : ∃ u, (lowerUnit {} "main" program).value = .ok u := ⟨_, rfl⟩
  obtain ⟨htable, hlisted, -⟩ := vars_in_first_use_order {} "main" program u hu
  have hnames : (programIdentifiers program).eraseDups = ["x", "y", "z"] := by decide
  rw [hnames] at htable
  rw [htable] at hlisted
  exact ⟨u, hu, htable, hlisted⟩

end ThreeAddress.Lowering
