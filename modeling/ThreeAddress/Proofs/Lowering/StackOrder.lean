import ThreeAddress.Proofs.Lowering.Numbering
import ThreeAddress.Proofs.Lowering.Residue
/-!
# Temporaries are used in the order of a stack

The temporaries that are assigned and not yet read are kept in a list, the last one at its end. An instruction has to
read the end of the list, in order, and puts the temporary that it assigns in its place (`Instr.settle?`). Lowered code
never gets stuck in this: the instructions of an expression leave alone whatever was pending before them and push what
its operand reads (`lowerExpr_piles`). A rejected step has lowered some expressions completely and none in part, so it
only leaves more behind. Since nothing is lost on the way (`perm_of_pendingAfter`), a temporary is read at most once,
and those that are never read are what is pending at the end.
-/
namespace ThreeAddress.Code

/-- The pending temporaries once the instruction is done, unless it reads others than the last ones. -/
def Instr.settle? (pending : List Temp) (i : Instr) : Option (List Temp) :=
  if i.usedTemps <:+ pending then
    some (pending.take (pending.length - i.usedTemps.length) ++ i.producedTemp?.toList)
  else none

theorem Instr.settle?_append (below : List Temp) (i : Instr) :
    i.settle? (below ++ i.usedTemps) = some (below ++ i.producedTemp?.toList) := by
  simp [settle?]

theorem Instr.settle?_eq_some_iff {pending next : List Temp} {i : Instr} :
    i.settle? pending = some next ↔ ∃ below, pending = below ++ i.usedTemps ∧ next = below ++ i.producedTemp?.toList := by
  constructor
  · intro h
    by_cases hs : i.usedTemps <:+ pending
    · obtain ⟨below, rfl⟩ := hs
      rw [settle?_append] at h
      exact ⟨below, rfl, (Option.some.inj h).symm⟩
    · rw [settle?, if_neg hs] at h
      cases h
  · rintro ⟨below, rfl, rfl⟩
    exact settle?_append below i

/-- The temporaries that are pending behind the instructions. -/
def pendingAfter (pending : List Temp) : List Instr → Option (List Temp)
  | [] => some pending
  | i :: rest => (i.settle? pending).bind fun next => pendingAfter next rest

theorem pendingAfter_append (pending : List Temp) (code rest : List Instr) :
    pendingAfter pending (code ++ rest) = (pendingAfter pending code).bind fun next => pendingAfter next rest := by
  induction code generalizing pending with
  | nil => rfl
  | cons i code ih =>
    rw [List.cons_append, pendingAfter, pendingAfter]
    cases i.settle? pending with
    | none => rfl
    | some next => exact ih next

theorem assignedTemps_cons (i : Instr) (code : List Instr) :
    assignedTemps (i :: code) = i.producedTemp?.toList ++ assignedTemps code := by
  rw [assignedTemps, List.filterMap_cons]
  cases i.producedTemp? <;> rfl

/-- What was pending or is assigned on the way is either read or still pending at the end. -/
theorem perm_of_pendingAfter {pending left : List Temp} {code : List Instr} (h : pendingAfter pending code = some left) :
    (pending ++ assignedTemps code).Perm (readTemps code ++ left) := by
  induction code generalizing pending with
  | nil =>
    cases h
    simp [assignedTemps, readTemps]
  | cons i code ih =>
    obtain ⟨next, hi, hrest⟩ := Option.bind_eq_some_iff.1 h
    obtain ⟨below, rfl, rfl⟩ := Instr.settle?_eq_some_iff.1 hi
    have hp := ih hrest
    calc (below ++ i.usedTemps ++ assignedTemps (i :: code)).Perm
          (i.usedTemps ++ below ++ assignedTemps (i :: code)) := List.perm_append_comm.append_right _
      _ = i.usedTemps ++ (below ++ i.producedTemp?.toList ++ assignedTemps code) := by
          rw [assignedTemps_cons, List.append_assoc, List.append_assoc]
      List.Perm _ (i.usedTemps ++ (readTemps code ++ left)) := hp.append_left _
      _ = readTemps (i :: code) ++ left := (List.append_assoc _ _ _).symm

end ThreeAddress.Code

namespace ThreeAddress.Lowering

open Source Code Session

/-! ## What an expression pushes -/

/-- Whatever was pending at `s`, at `t` it still is, with `pushed` behind it. -/
structure Piles (s t : Session) (pushed : List Temp) : Prop where
  continues : Continues s t
  pending : ∀ pending, pendingAfter pending (emitted s t) = some (pending ++ pushed)

section
variable {s t u : Session} {pushed : List Temp} (below : List Temp)

theorem Piles.refl (s : Session) : Piles s s [] where
  continues := .refl s
  pending pending := by rw [emitted_self, List.append_nil]; rfl

theorem Piles.trans {more : List Temp} (h : Piles s t pushed) (h' : Piles t u more) : Piles s u (pushed ++ more) where
  continues := h.continues.trans h'.continues
  pending pending := by
    rw [emitted_trans h.continues h'.continues, pendingAfter_append, h.pending, Option.bind_some, h'.pending,
      List.append_assoc]

theorem Piles.withName (h : Piles s t pushed) (name : String) : Piles s (t.withName name) pushed where
  continues := h.continues.trans (continues_withName t name)
  pending := h.pending

/-- An instruction that reads what was pushed last. -/
theorem Piles.withInstr {i : Instr} (h : Piles s t (below ++ i.usedTemps)) :
    Piles s (t.withInstr i) (below ++ i.producedTemp?.toList) where
  continues := h.continues.trans (continues_withInstr t i)
  pending pending := by
    rw [emitted_withInstr h.continues, pendingAfter_append, h.pending, Option.bind_some, ← List.append_assoc,
      pendingAfter, Instr.settle?_append, Option.bind_some, List.append_assoc]
    rfl

theorem Piles.withTemp {source : Operand} (h : Piles s t (below ++ source.temps)) :
    Piles s (t.withTemp source) (below ++ [t.temps.fresh.1]) := by
  have h' : Piles s { t with temps := t.temps.fresh.2 } (below ++ source.temps) :=
    ⟨h.continues.trans (continues_fresh t), h.pending⟩
  exact Piles.withInstr below (i := .assign (.temp t.temps.fresh.1) source) h'

/-- The conversion of an index takes what the index has pushed and pushes what the position reads. -/
theorem Piles.converted {index : Expr} {position zeroBased : Operand} (h : Piles s t (below ++ position.temps))
    (hz : Converted index position t zeroBased u) : Piles s u (below ++ zeroBased.temps) := by
  cases hz with
  | kept => exact h
  | folded _ _ hp _ =>
    rw [hp] at h
    exact h
  | computed => exact .withTemp below (by simpa using h)

end

theorem piles_eachLowered {args : List Expr} {s t : Session} {os : List Operand}
    (h : EachLowered (fun _ s o t => Piles s t o.temps) args s os t) : Piles s t (os.flatMap Operand.temps) := by
  induction h with
  | nil s => exact .refl s
  | cons _ hp _ ih => exact hp.trans ih

theorem lowerExpr_piles {e : Expr} {s t : Session} {o : Operand} (h : lowerExpr e s = .ok o t) : Piles s t o.temps := by
  apply lowerExpr_inductionOn (P := fun _ s o t => Piles s t o.temps) h
  case literal =>
    intro value s
    exact .refl s
  case ident =>
    intro name s
    exact (Piles.refl s).withName name
  case binary =>
    intro op left right s lhs u rhs v _ _ ihl ihr
    refine .withTemp [] ?_
    rw [List.nil_append, Operand.temps_binary]
    exact ihl.trans ihr
  case unary =>
    intro op operand s x u _ ih
    refine .withTemp [] ?_
    rw [List.nil_append, Operand.temps_unary]
    exact ih
  case subscript =>
    intro target index s vector u position v zeroBased w _ _ hz iht ihi
    refine .withTemp [] ?_
    rw [List.nil_append, Operand.temps_element]
    exact iht.trans ihi |>.converted _ hz
  case call =>
    intro function args s operands u ha
    refine .withTemp [] ?_
    rw [List.nil_append, Operand.temps_call, Operand.temps_func, List.nil_append]
    exact piles_eachLowered ha

/-- What a rejected expression leaves pending is the results of the expressions completed before the defect. -/
theorem piles_of_lowerExpr_error {e : Expr} {s t : Session} {cause : Rejection} (h : lowerExpr e s = .error cause t) :
    ∃ left, Piles s t left := by
  obtain ⟨os, hos⟩ := lowersTo_of_lowerExpr_error h
  exact ⟨_, piles_eachLowered (eachLowered_of_ok (fun _ _ _ _ _ => lowerExpr_piles) hos)⟩

/-! ## Statements -/

/-- The temporary is the result of an expression statement of the program, lowered from `s` on. -/
def IsAbandoned (program : List Stmt) (s : Session) (x : Temp) : Prop :=
  ∃ before value after u t, program = before ++ .expr value :: after ∧ lowerStmts before s = .ok () u ∧
    value.isOperation = true ∧ lowerExpr value u = .ok (.temp x) t

/-- The part of an operand's temporaries that a statement leaves pending. -/
def abandoned (o : Operand) : Stmt → List Temp
  | .assign .. => []
  | .expr _ => o.temps
  | .ret _ => []

theorem Piles.withStmt {s t : Session} {o : Operand} (h : Piles s t o.temps) (stmt : Stmt) :
    Piles s (t.withStmt o stmt) (abandoned o stmt) := by
  cases stmt with
  | assign name value => exact .withInstr [] (h.withName name)
  | expr value => exact h
  | ret value => exact .withInstr [] h

theorem mem_temps_iff_eq_temp {o : Operand} (h : o.isSimple = true) {x : Temp} : x ∈ o.temps ↔ o = .temp x := by
  cases o <;> simp_all [Operand.isSimple, eq_comm]

/-- Only an expression statement leaves something, and that is the temporary its expression is lowered to. -/
theorem mem_abandoned_iff {stmt : Stmt} {s u : Session} {o : Operand} (h : lowerExpr stmt.value s = .ok o u) {x : Temp} :
    x ∈ abandoned o stmt ↔
      ∃ value t, stmt = .expr value ∧ value.isOperation = true ∧ lowerExpr value s = .ok (.temp x) t := by
  cases stmt with
  | assign name value => simp [abandoned]
  | ret value => simp [abandoned]
  | expr value =>
    rw [abandoned, mem_temps_iff_eq_temp (lowerExpr_ok h).2.simple]
    constructor
    · rintro rfl
      exact ⟨value, u, rfl, (isOperation_iff_of_lowerExpr h).2 ⟨x, rfl⟩, h⟩
    · rintro ⟨_, t, ⟨rfl⟩, -, ht⟩
      have heq := h.symm.trans ht
      cases heq
      rfl

theorem isAbandoned_cons_iff {stmt : Stmt} {program : List Stmt} {s u : Session} {o : Operand}
    (h : lowerExpr stmt.value s = .ok o u) {x : Temp} :
    IsAbandoned (stmt :: program) s x ↔ x ∈ abandoned o stmt ∨ IsAbandoned program (u.withStmt o stmt) x := by
  have hstmt := lowerStmt_eq_ok_iff.2 ⟨o, u, h, rfl⟩
  rw [mem_abandoned_iff h]
  constructor
  · rintro ⟨before, value, after, v, t, heq, hbefore, hop, hv⟩
    cases before with
    | nil =>
      obtain ⟨rfl, -⟩ := List.cons.inj heq
      cases hbefore
      exact .inl ⟨value, t, rfl, hop, hv⟩
    | cons first before =>
      obtain ⟨rfl, rfl⟩ := List.cons.inj heq
      rw [lowerStmts, bind_of_ok hstmt] at hbefore
      exact .inr ⟨before, value, after, v, t, rfl, hbefore, hop, hv⟩
  · rintro (⟨value, t, rfl, hop, ht⟩ | ⟨before, value, after, v, t, rfl, hbefore, hop, hv⟩)
    · exact ⟨[], value, program, s, t, rfl, rfl, hop, ht⟩
    · refine ⟨stmt :: before, value, after, v, t, rfl, ?_, hop, hv⟩
      rw [lowerStmts, bind_of_ok hstmt, hbefore]

theorem lowerStmts_piles {program : List Stmt} {s t : Session} (h : lowerStmts program s = .ok () t) :
    ∃ left, Piles s t left ∧ ∀ x, x ∈ left ↔ IsAbandoned program s x := by
  induction program generalizing s with
  | nil =>
    cases h
    refine ⟨[], .refl t, fun x => ?_⟩
    constructor
    · intro hx
      cases hx
    · rintro ⟨before, value, after, u, v, heq, -⟩
      simp at heq
  | cons stmt program ih =>
    obtain ⟨o, u, he, hrest⟩ := lowerStmts_cons_eq_ok_iff.1 h
    obtain ⟨left, hp, hleft⟩ := ih hrest
    refine ⟨abandoned o stmt ++ left, ((lowerExpr_piles he).withStmt stmt).trans hp, fun x => ?_⟩
    rw [List.mem_append, hleft x, isAbandoned_cons_iff he]

/-! ## Sessions -/

theorem piles_sessionOf_lowerStmts (program : List Stmt) (s : Session) :
    ∃ left, Piles s (sessionOf (lowerStmts program s)) left := by
  cases h : lowerStmts program s with
  | ok a t =>
    obtain ⟨left, hp, -⟩ := lowerStmts_piles h
    exact ⟨left, hp⟩
  | error cause t =>
    obtain ⟨before, stmt, after, u, -, hbefore, hstmt⟩ := lowerStmts_eq_error_iff.1 h
    obtain ⟨left, hp, -⟩ := lowerStmts_piles hbefore
    obtain ⟨more, hm⟩ := piles_of_lowerExpr_error (lowerStmt_eq_error_iff.1 hstmt)
    exact ⟨left ++ more, hp.trans hm⟩

theorem piles_sessionOf_lowerExpr (e : Expr) (s : Session) : ∃ left, Piles s (sessionOf (lowerExpr e s)) left := by
  cases h : lowerExpr e s with
  | ok o t => exact ⟨o.temps, lowerExpr_piles h⟩
  | error cause t => exact piles_of_lowerExpr_error h

theorem sessionOf_bind_pure {α β : Type} (x : Step α) (f : α → β) (s : Session) :
    sessionOf ((x >>= fun a => pure (f a)) s) = sessionOf (x s) := by
  cases h : x s with
  | ok a t =>
    rw [bind_of_ok h]
    rfl
  | error cause t =>
    rw [bind_of_error h]
    rfl

theorem piles_after (s : Session) (call : Call) : ∃ left, Piles s (s.after call) left := by
  cases call with
  | expr e =>
    have hs : s.after (.expr e) = sessionOf (lowerExpr e s) := sessionOf_bind_pure (lowerExpr e) some s
    rw [hs]
    exact piles_sessionOf_lowerExpr e s
  | stmt single =>
    have hs : s.after (.stmt single) = sessionOf (lowerStmts [single] s) :=
      (sessionOf_bind_pure (lowerStmt single) (fun _ => none) s).trans
        (sessionOf_bind_pure (lowerStmt single) (fun _ => ()) s).symm
    rw [hs]
    exact piles_sessionOf_lowerStmts [single] s
  | stmts program =>
    have hs : s.after (.stmts program) = sessionOf (lowerStmts program s) :=
      sessionOf_bind_pure (lowerStmts program) (fun _ => none) s
    rw [hs]
    exact piles_sessionOf_lowerStmts program s

theorem piles_afterAll (s : Session) (calls : List Call) : ∃ left, Piles s (s.afterAll calls) left := by
  induction calls generalizing s with
  | nil => exact ⟨[], .refl s⟩
  | cons call calls ih =>
    obtain ⟨left, hp⟩ := piles_after s call
    obtain ⟨more, hm⟩ := ih (s.after call)
    exact ⟨left ++ more, hp.trans hm⟩

/-- From an empty unit on, what is assigned is either read, once, or pending at the end. -/
theorem Piles.perm_start {name : String} {config : Config} {temps : TempSupply} {t : Session} {left : List Temp}
    (h : Piles (Session.start name config temps) t left) :
    pendingAfter [] t.code.instrs.toList = some left ∧
    (assignedTemps t.code.instrs.toList).Perm (readTemps t.code.instrs.toList ++ left) := by
  have hp := h.pending []
  rw [emitted_start, List.nil_append] at hp
  exact ⟨hp, perm_of_pendingAfter hp⟩

theorem Session.Grows.nodup_assignedTemps {name : String} {config : Config} {temps : TempSupply} {t : Session}
    (h : Grows (Session.start name config temps) t) : (assignedTemps t.code.instrs.toList).Nodup := by
  rw [← emitted_start name config temps, h.assignedTemps_emitted]
  exact nodup_numbered _ _

/-- At every moment of every session the instructions read the pending temporaries from the end, and so every
temporary is read at most once. In a program that lowers, those that are never read are the results of the expression
statements. -/
theorem temps_read_in_stack_order :
    (∀ (name : String) (config : Config) (temps : TempSupply) (calls : List Call),
      let code := ((Session.start name config temps).afterAll calls).code.instrs.toList
      (∃ left, pendingAfter [] code = some left) ∧ (readTemps code).Nodup) ∧
    ∀ (config : Config) (name : String) (program : List Stmt) (u : CodeUnit),
      (lowerUnit config name program).value = .ok u →
        ∀ x, x ∈ assignedTemps u.instrs.toList ∧ x ∉ readTemps u.instrs.toList ↔
          IsAbandoned program (Session.start name config) x := by
  constructor
  · intro name config temps calls
    obtain ⟨left, hp⟩ := piles_afterAll (Session.start name config temps) calls
    obtain ⟨hleft, hperm⟩ := hp.perm_start
    have hnodup := hperm.nodup (grows_afterAll _ calls).nodup_assignedTemps
    exact ⟨⟨left, hleft⟩, (List.nodup_append.1 hnodup).1⟩
  · intro config name program u h x
    obtain ⟨s, hs, rfl⟩ := lowerUnit_eq_ok h
    obtain ⟨left, hp, hleft⟩ := lowerStmts_piles hs
    obtain ⟨-, hperm⟩ := hp.perm_start
    have hnodup := hperm.nodup (lowerStmts_ok hs).nodup_assignedTemps
    rw [← hleft x, hperm.mem_iff, List.mem_append]
    constructor
    · rintro ⟨hx | hx, hnot⟩
      · exact absurd hx hnot
      · exact hx
    · intro hx
      exact ⟨.inr hx, fun hread => (List.nodup_append.1 hnodup).2.2 x hread x hx rfl⟩

/-- The result of a call is left behind by its statement, while what is returned has been read. -/
theorem temps_read_in_stack_order_call :
    let program : List Stmt := [.expr (.call "f" [.ident "x"]), .ret (.unary .negate (.ident "x"))]
    let start := Session.start "main" {}
    ∃ u, (lowerUnit {} "main" program).value = .ok u ∧ assignedTemps u.instrs.toList = [⟨1⟩, ⟨2⟩] ∧
      readTemps u.instrs.toList = [⟨2⟩] ∧ IsAbandoned program start ⟨1⟩ ∧ ¬ IsAbandoned program start ⟨2⟩ := by
  intro program start
  obtain ⟨u, hu, ha, hr⟩ : ∃ u, (lowerUnit {} "main" program).value = .ok u ∧
      assignedTemps u.instrs.toList = [⟨1⟩, ⟨2⟩] ∧ readTemps u.instrs.toList = [⟨2⟩] := ⟨_, rfl, rfl, rfl⟩
  have hiff := temps_read_in_stack_order.2 {} "main" program u hu
  rw [ha, hr] at hiff
  exact ⟨u, hu, ha, hr, (hiff ⟨1⟩).1 (by decide), fun h => absurd ((hiff ⟨2⟩).2 h) (by decide)⟩

end ThreeAddress.Lowering
