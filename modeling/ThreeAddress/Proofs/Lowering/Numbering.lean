import ThreeAddress.Proofs.Lowering.Accepted
import ThreeAddress.Proofs.Lowering.Relocation
/-!
# How temporaries are numbered

A session assigns the temporaries that its supply gives, each once and in the order they are given, so that their
numbers follow upon each other without a gap (`Grows.assignedTemps_emitted`). Units that share a supply therefore have
no temporary in common. How many a program takes can be read off its syntax: one for every operation, and with
one-based subscripts one more for every index that has to be computed (`tempsNeeded`).
-/
namespace ThreeAddress.Source

/-- A subscript with one index, and that is no literal. -/
def Expr.hasComputedIndex : Expr → Bool
  | .subscript _ [.literal _] => false
  | .subscript _ [_] => true
  | _ => false

/-- Assignments and returns have an instruction of their own. -/
def Stmt.hasInstr : Stmt → Bool
  | .assign .. => true
  | .expr _ => false
  | .ret _ => true

/-- The expressions of a program and everything below them. -/
def programNodes (program : List Stmt) : List Expr := program.flatMap fun stmt => stmt.value.nodes

end ThreeAddress.Source

namespace ThreeAddress.Code

/-- The temporaries with the numbers `n + 1` to `n + m`. -/
def numbered (n m : Nat) : List Temp := (List.range' (n + 1) m).map Temp.mk

theorem numbered_succ (n m : Nat) : numbered n (m + 1) = numbered n m ++ [⟨n + m + 1⟩] := by
  rw [numbered, List.range'_1_concat, List.map_append, List.map_singleton, Nat.add_right_comm]
  rfl

theorem mem_numbered_iff {n m : Nat} {t : Temp} : t ∈ numbered n m ↔ n < t.id ∧ t.id ≤ n + m := by
  simp only [numbered, List.mem_map, List.mem_range'_1]
  constructor
  · rintro ⟨k, hk, rfl⟩
    simp only
    omega
  · intro h
    exact ⟨t.id, by omega, rfl⟩

theorem nodup_numbered (n m : Nat) : (numbered n m).Nodup := by
  refine List.Pairwise.map Temp.mk ?_ (List.nodup_range' (s := n + 1) (n := m))
  intro a b hne heq
  exact hne (Temp.mk.inj heq)

/-- The temporary is assigned or read. -/
def Occurs (t : Temp) (code : List Instr) : Prop := t ∈ assignedTemps code ∨ t ∈ readTemps code

theorem WellFormed.assigned_of_read {code : List Instr} (h : WellFormed code) {t : Temp} (ht : t ∈ readTemps code) :
    t ∈ assignedTemps code := by
  obtain ⟨i, hi, ht⟩ := List.mem_flatMap.1 ht
  obtain ⟨k, hk⟩ := List.mem_iff_getElem?.1 hi
  obtain ⟨j, -, source, hj⟩ := h.assignedBefore k i t hk (Operand.mem_temps_iff.1 ht)
  exact mem_assignedTemps_iff.2 ⟨source, List.mem_of_getElem? hj⟩

end ThreeAddress.Code

namespace ThreeAddress.Lowering

open Source Code Session

/-! ## Numbers without a gap -/

theorem Session.Grows.assignedTemps_emitted {s t : Session} (h : Grows s t) :
    assignedTemps (emitted s t) = numbered s.temps.allocated (t.temps.allocated - s.temps.allocated) := by
  induction h with
  | refl => simp [emitted_self, assignedTemps, numbered]
  | name _ _ ih => exact ih
  | @temp t h source _ _ ih =>
    have hle := h.continues.temps
    have hsub : (t.withTemp source).temps.allocated - s.temps.allocated =
        t.temps.allocated - s.temps.allocated + 1 :=
      (congrArg (· - _) t.temps.allocated_fresh).trans (Nat.succ_sub hle)
    have hfresh : t.temps.fresh.1 = ⟨t.temps.allocated + 1⟩ := congrArg Temp.mk t.temps.id_fresh
    rw [emitted_withTemp h.continues, assignedTemps_append, ih, hsub, numbered_succ, Nat.add_sub_cancel' hle, hfresh]
    rfl
  | @assign t h v source _ ih =>
    rw [emitted_withInstr h.continues, assignedTemps_append]
    exact (List.append_nil _).trans ih
  | @ret t h value _ ih =>
    rw [emitted_withInstr h.continues, assignedTemps_append]
    exact (List.append_nil _).trans ih

theorem emitted_start (name : String) (config : Config) (temps : TempSupply) (t : Session) :
    emitted (Session.start name config temps) t = t.code.instrs.toList := by
  simp [emitted, Session.start]

/-- A temporary of a session was given by its supply. -/
theorem range_of_occurs {name : String} {config : Config} {temps : TempSupply} {calls : List Call} {x : Temp}
    (h : Occurs x ((Session.start name config temps).afterAll calls).code.instrs.toList) :
    temps.allocated < x.id ∧ x.id ≤ ((Session.start name config temps).afterAll calls).temps.allocated := by
  have hg := grows_afterAll (Session.start name config temps) calls
  have hx : x ∈ assignedTemps ((Session.start name config temps).afterAll calls).code.instrs.toList := by
    rcases h with h | h
    · exact h
    · exact (hg.sound (sound_start name config temps)).wellFormed.assigned_of_read h
  rw [← emitted_start name config temps, hg.assignedTemps_emitted, mem_numbered_iff,
    Nat.add_sub_cancel' hg.continues.temps] at hx
  exact hx

/-! ## Units that share a supply -/

/-- A unit to be lowered by calls to a session of its own. -/
structure Job where
  name : String
  config : Config
  calls : List Call

/-- Lowers units one after another, each with the supply that the one before it has left. -/
def lowerInTurn : TempSupply → List Job → List CodeUnit
  | _, [] => []
  | temps, job :: jobs =>
    let s := (Session.start job.name job.config temps).afterAll job.calls
    s.code :: lowerInTurn s.temps jobs

theorem lt_of_occurs_lowerInTurn {temps : TempSupply} {jobs : List Job} {u : CodeUnit} {x : Temp}
    (hu : u ∈ lowerInTurn temps jobs) (hx : Occurs x u.instrs.toList) : temps.allocated < x.id := by
  induction jobs generalizing temps with
  | nil => cases hu
  | cons job jobs ih =>
    rcases List.mem_cons.1 hu with rfl | hu
    · exact (range_of_occurs hx).1
    · have hle := (grows_afterAll (Session.start job.name job.config temps) job.calls).continues.temps
      exact Nat.lt_of_le_of_lt hle (ih hu)

theorem lowerInTurn_pairwise (temps : TempSupply) (jobs : List Job) :
    (lowerInTurn temps jobs).Pairwise fun u v => ∀ x, Occurs x u.instrs.toList → ¬ Occurs x v.instrs.toList := by
  induction jobs generalizing temps with
  | nil => exact .nil
  | cons job jobs ih =>
    refine .cons ?_ (ih _)
    intro v hv x hx hxv
    have hle := (range_of_occurs hx).2
    have hlt := lt_of_occurs_lowerInTurn hv hxv
    omega

/-! ## How many -/

/-- The temporaries that the nodes take. -/
def tempsNeeded : IndexBase → List Expr → Nat
  | .zero, nodes => nodes.countP Expr.isOperation
  | .one, nodes => nodes.countP Expr.isOperation + nodes.countP Expr.hasComputedIndex

theorem tempsNeeded_append (base : IndexBase) (xs ys : List Expr) :
    tempsNeeded base (xs ++ ys) = tempsNeeded base xs + tempsNeeded base ys := by
  cases base with
  | zero => simp only [tempsNeeded, List.countP_append]
  | one =>
    simp only [tempsNeeded, List.countP_append]
    omega

theorem tempsNeeded_cons (base : IndexBase) (e : Expr) (nodes : List Expr) :
    tempsNeeded base (e :: nodes) = tempsNeeded base nodes + tempsNeeded base [e] := by
  rw [← List.singleton_append, tempsNeeded_append, Nat.add_comm]

theorem tempsNeeded_leaf {e : Expr} (ho : e.isOperation = false) (hi : e.hasComputedIndex = false) (base : IndexBase) :
    tempsNeeded base [e] = 0 := by
  cases base <;> simp [tempsNeeded, ho, hi]

theorem tempsNeeded_operation {e : Expr} (ho : e.isOperation = true) (hi : e.hasComputedIndex = false)
    (base : IndexBase) : tempsNeeded base [e] = 1 := by
  cases base <;> simp [tempsNeeded, ho, hi]

theorem tempsNeeded_computed {target index : Expr} (h : ∀ value, index ≠ .literal value) :
    tempsNeeded .one [.subscript target [index]] = 2 := by
  cases index with
  | literal value => exact absurd rfl (h value)
  | _ => rfl

/-- `k` temporaries were taken, and for each there is one instruction more. -/
structure Takes (s t : Session) (k : Nat) : Prop where
  temps : t.temps.allocated = s.temps.allocated + k
  instrs : t.code.size = s.code.size + k

theorem Takes.refl (s : Session) : Takes s s 0 := ⟨rfl, rfl⟩

theorem Takes.trans {s t u : Session} {k l : Nat} (h : Takes s t k) (h' : Takes t u l) : Takes s u (k + l) :=
  ⟨by rw [h'.temps, h.temps, Nat.add_assoc], by rw [h'.instrs, h.instrs, Nat.add_assoc]⟩

theorem takes_withTemp (s : Session) (source : Operand) : Takes s (s.withTemp source) 1 :=
  ⟨s.temps.allocated_fresh, by simp [withTemp, withInstr, CodeUnit.size, CodeUnit.push]⟩

theorem Takes.withTemp {s t : Session} {k : Nat} (h : Takes s t k) (source : Operand) :
    Takes s (t.withTemp source) (k + 1) :=
  h.trans (takes_withTemp t source)

/-- The conversion of an index takes the one temporary that a computed index is counted for. -/
theorem Converted.takes {index : Expr} {position zeroBased : Operand} {s t : Session}
    (h : Converted index position s zeroBased t) (target : Expr) (vector : Operand) :
    Takes s (t.withTemp (.element vector zeroBased)) (tempsNeeded s.config.indexBase [.subscript target [index]]) := by
  cases h with
  | kept hb =>
    rw [hb]
    exact takes_withTemp s _
  | folded hb hi _ _ =>
    rw [hb, hi, tempsNeeded_operation rfl rfl]
    exact takes_withTemp s _
  | computed hb hi =>
    rw [hb, tempsNeeded_computed hi]
    exact (takes_withTemp s _).withTemp _

theorem takes_eachLowered {args : List Expr} {s t : Session} {os : List Operand}
    (h : EachLowered (fun e s _ t => Takes s t (tempsNeeded s.config.indexBase e.nodes)) args s os t) :
    Takes s t (tempsNeeded s.config.indexBase (Expr.nodesAll args)) := by
  induction h with
  | nil s =>
    cases s.config.indexBase <;> exact Takes.refl s
  | cons h hp _ ih =>
    rw [config_of_lowerExpr h] at ih
    rw [Expr.nodesAll, tempsNeeded_append]
    exact hp.trans ih

theorem takes_lowerExpr {e : Expr} {s t : Session} {o : Operand} (h : lowerExpr e s = .ok o t) :
    Takes s t (tempsNeeded s.config.indexBase e.nodes) := by
  apply lowerExpr_inductionOn (P := fun e s _ t => Takes s t (tempsNeeded s.config.indexBase e.nodes)) h
  case literal =>
    intro value s
    rw [Expr.nodes, tempsNeeded_leaf rfl rfl]
    exact .refl s
  case ident =>
    intro name s
    rw [Expr.nodes, tempsNeeded_leaf rfl rfl]
    exact ⟨rfl, rfl⟩
  case binary =>
    intro op left right s lhs u rhs v hl _ ihl ihr
    rw [config_of_lowerExpr hl] at ihr
    rw [Expr.nodes, tempsNeeded_cons, tempsNeeded_operation rfl rfl, tempsNeeded_append]
    exact (ihl.trans ihr).withTemp _
  case unary =>
    intro op operand s x u _ ih
    rw [Expr.nodes, tempsNeeded_cons, tempsNeeded_operation rfl rfl]
    exact ih.withTemp _
  case subscript =>
    intro target index s vector u position v zeroBased w ht hi hz iht ihi
    have hconfig : v.config = s.config := (config_of_lowerExpr hi).trans (config_of_lowerExpr ht)
    rw [config_of_lowerExpr ht] at ihi
    have hlast := hz.takes target vector
    rw [hconfig] at hlast
    rw [Expr.nodes, Expr.nodesAll, Expr.nodesAll, List.append_nil, tempsNeeded_cons, tempsNeeded_append]
    exact (iht.trans ihi).trans hlast
  case call =>
    intro function args s operands u ha
    rw [Expr.nodes, tempsNeeded_cons, tempsNeeded_operation rfl rfl]
    exact (takes_eachLowered ha).withTemp _

theorem temps_withStmt (s : Session) (o : Operand) (stmt : Stmt) : (s.withStmt o stmt).temps = s.temps := by
  cases stmt <;> rfl

theorem size_withStmt (s : Session) (o : Operand) (stmt : Stmt) :
    (s.withStmt o stmt).code.size = s.code.size + [stmt].countP Stmt.hasInstr := by
  cases stmt with
  | assign | ret => exact Array.size_push _
  | expr => rfl

theorem counts_lowerStmts {program : List Stmt} {s t : Session} (h : lowerStmts program s = .ok () t) :
    t.temps.allocated = s.temps.allocated + tempsNeeded s.config.indexBase (programNodes program) ∧
    t.code.size = s.code.size + tempsNeeded s.config.indexBase (programNodes program) +
      program.countP Stmt.hasInstr := by
  induction program generalizing s with
  | nil =>
    rw [lowerStmts] at h
    cases h
    cases t.config.indexBase <;> exact ⟨rfl, rfl⟩
  | cons stmt program ih =>
    obtain ⟨o, u, he, hrest⟩ := lowerStmts_cons_eq_ok_iff.1 h
    have hconfig := config_of_lowerStmt (lowerStmt_eq_ok_iff.2 ⟨o, u, he, rfl⟩)
    obtain ⟨htemps, hsize⟩ := takes_lowerExpr he
    obtain ⟨htemps', hsize'⟩ := ih hrest
    rw [hconfig, temps_withStmt] at htemps'
    rw [hconfig, size_withStmt] at hsize'
    have hnodes : tempsNeeded s.config.indexBase (programNodes (stmt :: program)) =
        tempsNeeded s.config.indexBase stmt.value.nodes + tempsNeeded s.config.indexBase (programNodes program) :=
      tempsNeeded_append _ _ _
    have hinstrs : (stmt :: program).countP Stmt.hasInstr =
        [stmt].countP Stmt.hasInstr + program.countP Stmt.hasInstr := by
      rw [← List.singleton_append, List.countP_append]
    rw [hnodes, hinstrs]
    constructor <;> omega

/-! ## The law -/

/-- The temporaries of a session follow upon those that its supply had given, without a gap and up to the last one that
the supply has given then; another start only moves the numbers and changes neither names nor rejections; units that
share a supply have no temporary in common; and a program that lowers takes the temporaries that its syntax asks for,
with one more instruction for every assignment and return. -/
theorem temps_dense_and_relocatable :
    (∀ (name : String) (config : Config) (temps : TempSupply) (calls : List Call),
      let n := temps.allocated
      let start := Session.start name config
      let s := (Session.start name config temps).afterAll calls
      (∃ m, s.temps.allocated = n + m ∧ assignedTemps s.code.instrs.toList = numbered n m) ∧
      s.code = (start.afterAll calls).code.raise n ∧
      (Session.start name config temps).answers calls =
        (start.answers calls).map (Except.map (Option.map (Operand.raise n)))) ∧
    (∀ (temps : TempSupply) (jobs : List Job),
      (lowerInTurn temps jobs).Pairwise fun u v => ∀ x, Occurs x u.instrs.toList → ¬ Occurs x v.instrs.toList) ∧
    ∀ (config : Config) (name : String) (program : List Stmt) (u : CodeUnit),
      (lowerUnit config name program).value = .ok u →
        assignedTemps u.instrs.toList = numbered 0 (tempsNeeded config.indexBase (programNodes program)) ∧
        u.size = tempsNeeded config.indexBase (programNodes program) + program.countP Stmt.hasInstr := by
  refine ⟨fun name config temps calls => ⟨?_, ?_, ?_⟩, lowerInTurn_pairwise, ?_⟩
  · have hg := grows_afterAll (Session.start name config temps) calls
    refine ⟨_, (Nat.add_sub_cancel' hg.continues.temps).symm, ?_⟩
    rw [← emitted_start name config temps, hg.assignedTemps_emitted]
    rfl
  · exact ((raised_start name config temps).afterAll calls).code
  · exact (raised_start name config temps).answers calls
  · intro config name program u h
    obtain ⟨s, hs, rfl⟩ := lowerUnit_eq_ok h
    obtain ⟨htemps, hsize⟩ := counts_lowerStmts hs
    have hdense := (lowerStmts_ok hs).assignedTemps_emitted
    rw [emitted_start, htemps, Nat.add_sub_cancel_left] at hdense
    refine ⟨hdense, ?_⟩
    rw [hsize]
    exact congrArg (· + _) (Nat.zero_add _)

/-- One-based subscripts, with an index that is computed and one that is a literal. -/
theorem temps_dense_and_relocatable_subscripts :
    let program : List Stmt :=
      [.assign "y" (.subscript (.ident "x") [.ident "i"]), .ret (.subscript (.ident "x") [.literal (.int 1)])]
    ∃ u, (lowerUnit { indexBase := .one } "main" program).value = .ok u ∧
      assignedTemps u.instrs.toList = [⟨1⟩, ⟨2⟩, ⟨3⟩] ∧ u.size = 3 + 2 := by
  intro program
  obtain ⟨u, hu⟩ : ∃ u, (lowerUnit { indexBase := .one } "main" program).value = .ok u := ⟨_, rfl⟩
  exact ⟨u, hu, temps_dense_and_relocatable.2.2 _ _ _ u hu⟩

end ThreeAddress.Lowering
