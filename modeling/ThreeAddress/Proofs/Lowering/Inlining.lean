import ThreeAddress.Proofs.Code.Unfolding
import ThreeAddress.Proofs.Lowering.StackOrder
/-!
# Unfolding what an expression was lowered to

`nested?` writes an expression as one operand, node by node and without a temporary. Lowering cuts it into instructions,
and unfolding the temporaries in the operand that it answers with puts it together again, in whatever order that is
done. An induction over the expression shows that the operand stands for the nested one under every solution of the
emitted code (`lowerExpr_nested`). That there is a solution follows from the stack order: an instruction reads only
what was pushed before it, and no temporary is assigned twice (`exists_solves`).
-/
namespace ThreeAddress.Code

/-! ## Solutions -/

/-- What an instruction assigns, put in under what is known before it. -/
def Instr.solve (f : Temp → Operand) (i : Instr) (t : Temp) : Operand :=
  if i.producedTemp? = some t then i.source.subst f else f t

/-- Code that reads in the order of a stack and assigns no temporary twice has a solution, and that is free in all
temporaries that are not assigned. -/
theorem exists_solves {pending left : List Temp} {code : List Instr} (h : pendingAfter pending code = some left)
    (hd : (pending ++ assignedTemps code).Nodup) (f : Temp → Operand) :
    ∃ g, Solves g code ∧ ∀ t, t ∉ assignedTemps code → g t = f t := by
  induction code generalizing pending f with
  | nil =>
    refine ⟨f, ?_, fun _ _ => rfl⟩
    intro t source hi
    cases hi
  | cons i code ih =>
    obtain ⟨next, hi, hrest⟩ := Option.bind_eq_some_iff.1 h
    obtain ⟨below, rfl, rfl⟩ := Instr.settle?_eq_some_iff.1 hi
    rw [assignedTemps_cons] at hd ⊢
    have hnext : (below ++ i.producedTemp?.toList ++ assignedTemps code).Nodup := by
      rw [List.append_assoc]
      exact hd.sublist ((List.sublist_append_left below i.usedTemps).append_right _)
    obtain ⟨g, hg, hfree⟩ := ih hrest hnext (i.solve f)
    -- neither `i` nor what follows assigns a temporary that `i` reads, so that `g` is `f` there
    have hread : ∀ t ∈ i.usedTemps, t ∉ i.producedTemp?.toList ++ assignedTemps code := by
      intro t ht hlater
      exact (List.nodup_append.1 hd).2.2 t (List.mem_append_right _ ht) t hlater rfl
    have hkeep : ∀ t, t ∉ i.producedTemp?.toList ++ assignedTemps code → g t = f t := by
      intro t ht
      rw [List.mem_append, not_or, Option.mem_toList] at ht
      rw [hfree t ht.2, Instr.solve, if_neg ht.1]
    refine ⟨g, ?_, hkeep⟩
    intro t source hmem
    rcases List.mem_cons.1 hmem with rfl | hmem
    · have hlater : t ∉ assignedTemps code := by
        intro hlater
        exact (List.nodup_append.1 hnext).2.2 t (by simp) t hlater rfl
      rw [hfree t hlater, Instr.solve, if_pos (Instr.producedTemp?_assign_temp t source)]
      exact Operand.subst_congr fun x hx => (hkeep x (hread x hx)).symm
    · exact hg t source hmem

end ThreeAddress.Code

namespace ThreeAddress.Source

def BinaryOp.symbol : BinaryOp → String
  | .add => "+"
  | .subtract => "-"
  | .multiply => "*"
  | .divide => "/"
  | .modulo => "%%"
  | .power => "^"
  | .equal => "=="
  | .notEqual => "!="
  | .less => "<"
  | .lessEqual => "<="
  | .greater => ">"
  | .greaterEqual => ">="
  | .and => "&"
  | .or => "|"

def UnaryOp.symbol : UnaryOp → String
  | .negate => "-"
  | .not => "!"

end ThreeAddress.Source

namespace ThreeAddress.Lowering

open Source Code Session

/-! ## The nested operand -/

/-- An operator is lowered to the one that is written with the same symbol. -/
theorem lowerBinaryOp_eq_iff {op : Source.BinaryOp} {p : Code.BinaryOp} :
    lowerBinaryOp op = p ↔ p.symbol = op.symbol := by
  cases op <;> cases p <;> decide

theorem lowerUnaryOp_eq_iff {op : Source.UnaryOp} {p : Code.UnaryOp} :
    lowerUnaryOp op = p ↔ p.symbol = op.symbol := by
  cases op <;> cases p <;> decide

/-- An index as a zero-based position. The least integer has none below it, and literals that are no numbers carry
none. -/
def zeroBased? : IndexBase → Operand → Option Operand
  | .zero, index => some index
  | .one, .const (.int k) => if k = Int64.minValue then none else some (.const (.int (k - 1)))
  | .one, .const (.double d) => some (.const (.double d.minusOne))
  | .one, .const value => some (.const value)
  | .one, index => some (.binary .sub index (.const (.int 1)))

mutual

/-- The expression as one operand, with the slots that the table gives to its names and with the operators that are
written alike (`lowerBinaryOp_eq_iff`, `lowerUnaryOp_eq_iff`). -/
def nested? (base : IndexBase) (table : VarTable) : Expr → Option Operand
  | .literal value => some (.const value)
  | .ident name => (table.lookup? name).map .var
  | .binary op left right => do
    let lhs ← nested? base table left
    let rhs ← nested? base table right
    return .binary (lowerBinaryOp op) lhs rhs
  | .unary op operand => do
    let x ← nested? base table operand
    return .unary (lowerUnaryOp op) x
  | .subscript _ [] => none
  | .subscript target [index] => do
    let vector ← nested? base table target
    let position ← nested? base table index
    return .element vector (← zeroBased? base position)
  | .subscript _ (_ :: _ :: _) => none
  | .call function args => do
    let operands ← nestedAll? base table args
    return .call (.func function) operands

def nestedAll? (base : IndexBase) (table : VarTable) : List Expr → Option (List Operand)
  | [] => some []
  | arg :: args => do
    let operand ← nested? base table arg
    let operands ← nestedAll? base table args
    return operand :: operands

end

theorem zeroBased?_one_const {value shifted : Constant} (h : shiftConstant value = .ok shifted) :
    zeroBased? .one (.const value) = some (.const shifted) := by
  cases value with
  | int k =>
    by_cases hk : k = Int64.minValue
    · simp [shiftConstant, hk] at h
    · simp only [shiftConstant, hk, if_false] at h
      cases h
      simp [zeroBased?, hk]
  | _ =>
    cases h
    rfl

theorem zeroBased?_one {index : Operand} (h : ∀ value, index ≠ .const value) :
    zeroBased? .one index = some (.binary .sub index (.const (.int 1))) := by
  cases index with
  | const value => exact absurd rfl (h value)
  | _ => rfl

/-- Only a literal is a constant when it is written as one operand. -/
theorem ne_const_of_nested? {base : IndexBase} {table : VarTable} {e : Expr} {q : Operand}
    (h : nested? base table e = some q) (he : ∀ value, e ≠ .literal value) (value : Constant) : q ≠ .const value := by
  rintro rfl
  cases e using Expr.inductionOn with
  | literal c => exact he c rfl
  | noIndex | manyIndices => cases h
  | _ => simp [nested?, Option.bind_eq_some_iff] at h

/-! ## What the operand stands for -/

section
variable {f : Temp → Operand} {s t u : Session}

theorem solves_left (h : Solves f (emitted s u)) (hst : Continues s t) (htu : Continues t u) :
    Solves f (emitted s t) := by
  rw [emitted_trans hst htu] at h
  exact h.mono fun i hi => List.mem_append_left _ hi

theorem solves_right (h : Solves f (emitted s u)) (hst : Continues s t) (htu : Continues t u) :
    Solves f (emitted t u) := by
  rw [emitted_trans hst htu] at h
  exact h.mono fun i hi => List.mem_append_right _ hi

/-- The temporary taken last stands for what its source stands for. -/
theorem solves_fresh {source : Operand} (h : Solves f (emitted s (t.withTemp source))) (hst : Continues s t) :
    f t.temps.fresh.1 = source.subst f := by
  rw [emitted_withTemp hst] at h
  exact h _ _ List.mem_concat_self

/-- Under every solution of the code that was emitted for it, the operand stands for the nested one. -/
def StandsFor (table : VarTable) (f : Temp → Operand) (e : Expr) (s : Session) (o : Operand) (t : Session) : Prop :=
  t.code.vars.toList <+: table.toList → Solves f (emitted s t) → nested? s.config.indexBase table e = some (o.subst f)

theorem nestedAll?_eachLowered {table : VarTable} {args : List Expr} {os : List Operand}
    (h : EachLowered (StandsFor table f) args s os t) (hn : t.code.vars.toList <+: table.toList)
    (hf : Solves f (emitted s t)) :
    nestedAll? s.config.indexBase table args = some (os.map (Operand.subst f)) := by
  induction h with
  | nil s => rfl
  | cons h hp hs ih =>
    have hc := (lowerExpr_ok h).1.continues
    have harg := hp (hs.continues.vars.trans hn) (solves_left hf hc hs.continues)
    have hargs := ih hn (solves_right hf hc hs.continues)
    rw [config_of_lowerExpr h] at hargs
    rw [nestedAll?, harg, hargs]
    rfl

/-- The converted position stands for the converted index. -/
theorem zeroBased?_converted {table : VarTable} {index : Expr} {position zeroBased : Operand}
    (hz : Converted index position s zeroBased t) (hf : Solves f (emitted s t))
    (hi : nested? s.config.indexBase table index = some (position.subst f)) :
    zeroBased? s.config.indexBase (position.subst f) = some (zeroBased.subst f) := by
  cases hz with
  | kept hb =>
    rw [hb]
    rfl
  | folded hb _ hp hs =>
    rw [hb, hp]
    exact zeroBased?_one_const hs
  | computed hb hl =>
    rw [hb, zeroBased?_one (ne_const_of_nested? hi hl), Operand.subst, solves_fresh hf (.refl s)]
    rfl

theorem lowerExpr_nested {e : Expr} {o : Operand} (h : lowerExpr e s = .ok o t) (table : VarTable)
    (f : Temp → Operand) : StandsFor table f e s o t := by
  apply lowerExpr_inductionOn (P := StandsFor table f) h
  case literal =>
    intro value s _ _
    rfl
  case ident =>
    intro name s hn _
    have hv := VarTable.lookup?_of_isPrefix hn (VarTable.lookup?_intern s.code.vars name)
    rw [nested?, hv]
    rfl
  case binary =>
    intro op left right s lhs u rhs v hl hr ihl ihr hn hf
    have hsu := (lowerExpr_ok hl).1.continues
    have huv := (lowerExpr_ok hr).1.continues
    have hlast := solves_fresh hf (hsu.trans huv)
    have hf := solves_left hf (hsu.trans huv) (continues_withTemp v _)
    have hlhs := ihl (huv.vars.trans hn) (solves_left hf hsu huv)
    have hrhs := ihr hn (solves_right hf hsu huv)
    rw [config_of_lowerExpr hl] at hrhs
    rw [nested?, hlhs, hrhs, Operand.subst, hlast]
    rfl
  case unary =>
    intro op operand s x u hx ih hn hf
    have hsu := (lowerExpr_ok hx).1.continues
    have hoperand := ih hn (solves_left hf hsu (continues_withTemp u _))
    rw [nested?, hoperand, Operand.subst, solves_fresh hf hsu]
    rfl
  case subscript =>
    intro target index s vector u position v zeroBased w ht hi hz iht ihi hn hf
    have hsu := (lowerExpr_ok ht).1.continues
    have huv := (lowerExpr_ok hi).1.continues
    have hvw := hz.continues
    have hlast := solves_fresh hf ((hsu.trans huv).trans hvw)
    have hf := solves_left hf ((hsu.trans huv).trans hvw) (continues_withTemp w _)
    have hn' := hvw.vars.trans hn
    -- the code of the target, of the index and of its conversion, one behind the other
    have hvector := iht (huv.vars.trans hn') (solves_left hf hsu (huv.trans hvw))
    have hrest := solves_right hf hsu (huv.trans hvw)
    have hindex := ihi hn' (solves_left hrest huv hvw)
    rw [← config_of_lowerExpr hi] at hindex
    have hposition := zeroBased?_converted hz (solves_right hrest huv hvw) hindex
    rw [config_of_lowerExpr hi, config_of_lowerExpr ht] at hindex hposition
    rw [nested?, hvector, hindex, Operand.subst, hlast]
    simp [hposition, Operand.subst]
  case call =>
    intro function args s operands u ha hn hf
    have hsu := ha.continues
    have hargs := nestedAll?_eachLowered ha hn (solves_left hf hsu (continues_withTemp u _))
    rw [nested?, hargs, Operand.subst, solves_fresh hf hsu, Operand.subst, Operand.substAll_eq_map]
    rfl

end

/-! ## The expression comes back -/

/-- A temporary is only ever assigned an operation. -/
theorem Session.Grows.isComposite_source {s t : Session} (h : Grows s t) {x : Temp} {source : Operand}
    (hi : .assign (.temp x) source ∈ emitted s t) : source.isComposite = true := by
  induction h with
  | refl =>
    rw [emitted_self] at hi
    cases hi
  | name _ _ ih => exact ih hi
  | @temp t h src hc _ ih =>
    rw [emitted_withTemp h.continues, List.mem_append, List.mem_singleton] at hi
    rcases hi with hi | hi
    · exact ih hi
    · cases hi
      exact hc
  | @assign t h v src _ ih =>
    rw [emitted_withInstr h.continues, List.mem_append, List.mem_singleton] at hi
    rcases hi with hi | hi
    · exact ih hi
    · cases hi
  | @ret t h value _ ih =>
    rw [emitted_withInstr h.continues, List.mem_append, List.mem_singleton] at hi
    rcases hi with hi | hi
    · exact ih hi
    · cases hi

theorem getLast?_emitted_withTemp {s t : Session} (h : Continues s t) (source : Operand) :
    (emitted s (t.withTemp source)).getLast? = some (.assign (.temp t.temps.fresh.1) source) := by
  rw [emitted_withTemp h, List.getLast?_concat]

/-- An operation is emitted last, and what is no operation emits nothing. -/
theorem emitted_lowerExpr {e : Expr} {s t : Session} {o : Operand} (h : lowerExpr e s = .ok o t) :
    (e.isOperation = true → ∃ x source, o = .temp x ∧ (emitted s t).getLast? = some (.assign (.temp x) source)) ∧
    (e.isOperation = false → emitted s t = []) := by
  apply lowerExpr_inductionOn (P := fun e s o t =>
    (e.isOperation = true → ∃ x source, o = .temp x ∧ (emitted s t).getLast? = some (.assign (.temp x) source)) ∧
    (e.isOperation = false → emitted s t = [])) h
  case literal =>
    intro value s
    exact ⟨nofun, fun _ => emitted_self s⟩
  case ident =>
    intro name s
    exact ⟨nofun, fun _ => emitted_withName s name⟩
  case binary =>
    intro op left right s lhs u rhs v hl hr _ _
    have hc := (lowerExpr_ok hl).1.continues.trans (lowerExpr_ok hr).1.continues
    exact ⟨fun _ => ⟨_, _, rfl, getLast?_emitted_withTemp hc _⟩, nofun⟩
  case unary =>
    intro op operand s x u hx _
    exact ⟨fun _ => ⟨_, _, rfl, getLast?_emitted_withTemp (lowerExpr_ok hx).1.continues _⟩, nofun⟩
  case subscript =>
    intro target index s vector u position v zeroBased w ht hi hz _ _
    have hc := ((lowerExpr_ok ht).1.continues.trans (lowerExpr_ok hi).1.continues).trans hz.continues
    exact ⟨fun _ => ⟨_, _, rfl, getLast?_emitted_withTemp hc _⟩, nofun⟩
  case call =>
    intro function args s operands u ha
    exact ⟨fun _ => ⟨_, _, rfl, getLast?_emitted_withTemp ha.continues _⟩, nofun⟩

/-- An expression is lowered to a simple operand: to the temporary that the last of the emitted instructions assigns if
it is an operation, and otherwise without an instruction. No temporary is assigned twice by what was emitted, and
unfolding them in the operand, in whatever order, comes to an end with the expression as one nested operand. -/
theorem unfolding_restores_expression (e : Expr) (s t : Session) (o : Operand) (h : lowerExpr e s = .ok o t) :
    o.isSimple = true ∧
    t.code.instrs.toList = s.code.instrs.toList ++ emitted s t ∧
    (e.isOperation = true ↔ ∃ x, o = .temp x) ∧
    (e.isOperation = true → ∃ x source, o = .temp x ∧ (emitted s t).getLast? = some (.assign (.temp x) source)) ∧
    (e.isOperation = false → emitted s t = []) ∧
    (assignedTemps (emitted s t)).Nodup ∧
    ∃ q, nested? s.config.indexBase t.code.vars e = some q ∧ UnfoldsOnlyTo (emitted s t) o q := by
  obtain ⟨hgrows, hreadable⟩ := lowerExpr_ok h
  obtain ⟨hlast, hnone⟩ := emitted_lowerExpr h
  have hdense := hgrows.assignedTemps_emitted
  have hnodup : (assignedTemps (emitted s t)).Nodup := by
    rw [hdense]
    exact nodup_numbered _ _
  have hpending := (lowerExpr_piles h).pending []
  have hperm := perm_of_pendingAfter hpending
  obtain ⟨f, hf, -⟩ := exists_solves hpending hnodup .temp
  have hnested := lowerExpr_nested h t.code.vars f List.prefix_rfl hf
  refine ⟨hreadable.simple, hgrows.continues.toList_instrs, isOperation_iff_of_lowerExpr h, hlast, hnone, hnodup,
    o.subst f, hnested, unfoldsOnlyTo_of_solves hf ?_ ?_ ?_⟩
  · intro x source hi
    exact hgrows.isComposite_source hi
  · intro x hx
    exact hperm.mem_iff.2 (List.mem_append_left _ hx)
  · intro x hx
    exact hperm.mem_iff.2 (List.mem_append_right _ hx)

/-- `a[2.5][-i]` with one-based indices, in a session that has taken temporaries before. -/
theorem unfolding_restores_expression_oneBased :
    let s := Session.start "main" { indexBase := .one } { next := 4 }
    let e : Expr := .subscript (.subscript (.ident "a") [.literal (.double ⟨0x4004000000000000⟩)])
      [.unary .negate (.ident "i")]
    let t := sessionOf (lowerExpr e s)
    lowerExpr e s = .ok (.temp ⟨7⟩) t ∧
    emitted s t = [.assign (.temp ⟨4⟩) (.element (.var ⟨"a", 0⟩) (.const (.double ⟨0x3FF8000000000000⟩))),
      .assign (.temp ⟨5⟩) (.unary .neg (.var ⟨"i", 1⟩)),
      .assign (.temp ⟨6⟩) (.binary .sub (.temp ⟨5⟩) (.const (.int 1))),
      .assign (.temp ⟨7⟩) (.element (.temp ⟨4⟩) (.temp ⟨6⟩))] ∧
    UnfoldsOnlyTo (emitted s t) (.temp ⟨7⟩)
      (.element (.element (.var ⟨"a", 0⟩) (.const (.double ⟨0x3FF8000000000000⟩)))
        (.binary .sub (.unary .neg (.var ⟨"i", 1⟩)) (.const (.int 1)))) := by
  intro s e t
  have h : lowerExpr e s = .ok (.temp ⟨7⟩) t := rfl
  obtain ⟨-, -, -, -, -, -, q, hq, hu⟩ := unfolding_restores_expression e s t _ h
  refine ⟨h, rfl, ?_⟩
  cases hq
  exact hu

end ThreeAddress.Lowering
