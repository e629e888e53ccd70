import ThreeAddress.Proofs.Lowering.Growth
/-!
# Lowered code verifies

`Sound` is what a session keeps however it goes on: its code is well formed and no temporary was assigned that the
supply has not given, so the next fresh one is new. A session is used through `Call`s in any order; a rejected call
leaves the session as it was when the defect was met, and the next call goes on from there.
-/
namespace ThreeAddress.Lowering

open Source Code

/-! ## Sessions of calls -/

/-- A request to a session. -/
inductive Call where
  | expr (e : Expr)
  | stmt (single : Stmt)
  | stmts (program : List Stmt)

/-- The operand is what an expression was lowered to. -/
def Call.step : Call → Step (Option Operand)
  | .expr e => some <$> lowerExpr e
  | .stmt single => do
    lowerStmt single
    return none
  | .stmts program => do
    lowerStmts program
    return none

namespace Session

/-- A rejected call counts too: the session is as the call left it. -/
def after (s : Session) (call : Call) : Session := sessionOf (call.step s)

def afterAll (s : Session) (calls : List Call) : Session := calls.foldl after s

theorem grows_after (s : Session) (call : Call) : Grows s (s.after call) := by
  have h : Grown s (fun _ _ => True) (call.step s) := by
    cases call with
    | expr e => exact (lowerExpr_grown e s).bind fun _ _ _ _ => grown_pure trivial
    | stmt single => exact (lowerStmt_grown single s).bind fun _ _ _ _ => grown_pure trivial
    | stmts program => exact (lowerStmts_grown program s).bind fun _ _ _ _ => grown_pure trivial
  exact h.grows

theorem grows_afterAll (s : Session) (calls : List Call) : Grows s (s.afterAll calls) := by
  induction calls generalizing s with
  | nil => exact .refl
  | cons call calls ih => exact (grows_after s call).trans (ih (s.after call))

/-! ## The invariant -/

structure Sound (s : Session) : Prop where
  wellFormed : WellFormed s.code.instrs.toList
  given : ∀ j t, Produces s.code.instrs.toList j t → t.id ≤ s.temps.allocated

theorem sound_start (name : String) (config : Config) (temps : TempSupply) : Sound (start name config temps) where
  wellFormed := wellFormed_nil
  given _ _ h := (not_produces_nil h).elim

/-- A readable operand can be assigned to a variable or returned. -/
theorem Readable.fits {s : Session} {i : Instr} (h : s.Readable i.source) (hp : i.producedTemp? = none) :
    Fits s.code.instrs.toList i where
  flat := by
    cases i with
    | assign target source =>
      intro sub hsub
      rw [Operand.walk_of_isSimple (o := source) h.simple] at hsub
      cases hsub
    | ret value => exact h.simple
  assigned t ht := h.assigned t (Operand.mem_temps_iff.2 ht)
  fresh t ht := by rw [hp] at ht; cases ht

theorem Sound.withInstr {s : Session} {i : Instr} (h : s.Sound) (hf : Fits s.code.instrs.toList i)
    (hg : ∀ t, i.producedTemp? = some t → t.id ≤ s.temps.allocated) : (s.withInstr i).Sound where
  wellFormed := by
    rw [toList_instrs_withInstr]
    exact h.wellFormed.concat hf
  given j t hp := by
    rw [toList_instrs_withInstr] at hp
    rcases produces_concat_iff.1 hp with hp | ⟨-, hp⟩
    · exact h.given j t hp
    · exact hg t hp

/-- An operation on readable operands can be assigned to a fresh temporary. -/
theorem Sound.fits_fresh {s : Session} {source : Operand} (h : s.Sound) (hc : source.isComposite = true)
    (hr : ∀ sub ∈ source.subOperands, s.Readable sub) :
    Fits s.code.instrs.toList (.assign (.temp s.temps.fresh.1) source) where
  flat := Operand.forall_mem_tail_walk_iff.2 fun sub hsub => (hr sub hsub).simple
  assigned t ht := by
    have hmem : t ∈ source.subOperands.flatMap Operand.temps :=
      Operand.temps_eq_flatMap hc ▸ Operand.mem_temps_iff.2 ht
    obtain ⟨sub, hsub, hts⟩ := List.mem_flatMap.1 hmem
    exact (hr sub hsub).assigned t hts
  fresh t ht j hj := by
    obtain rfl : s.temps.fresh.1 = t := by simpa using ht
    -- whatever is assigned was given, and the supply gives a number above all of those
    have hle := h.given j _ hj
    rw [TempSupply.id_fresh] at hle
    omega

theorem Sound.withTemp {s : Session} {source : Operand} (h : s.Sound) (hc : source.isComposite = true)
    (hr : ∀ sub ∈ source.subOperands, s.Readable sub) : (s.withTemp source).Sound := by
  have hs : Sound { s with temps := s.temps.fresh.2 } :=
    ⟨h.wellFormed, fun j t hp => Nat.le_trans (h.given j t hp) s.temps.allocated_le_fresh⟩
  refine hs.withInstr (h.fits_fresh hc hr) fun t ht => ?_
  obtain rfl : s.temps.fresh.1 = t := by simpa using ht
  exact Nat.le_refl _

theorem Grows.sound {s t : Session} (h : Grows s t) (hs : s.Sound) : t.Sound := by
  induction h with
  | refl => exact hs
  | name _ name ih => exact ⟨ih.wellFormed, ih.given⟩
  | temp _ source hc hr ih => exact ih.withTemp hc hr
  | assign _ v source hr ih => exact ih.withInstr (hr.fits rfl) (by simp)
  | ret _ value hr ih => exact ih.withInstr (hr.fits rfl) (by simp)

theorem Sound.verify {s : Session} (h : s.Sound) : s.code.verify = .ok () :=
  (verifyFrom_eq_ok_iff _ [] [] wellFormed_nil Producers.tracks_nil).2 h.wellFormed

end Session

/-- At every moment of every session the code verifies, whatever was called and whatever was rejected, and so does
every program lowered as a unit. -/
theorem session_code_verifies :
    (∀ (name : String) (config : Config) (temps : TempSupply) (calls : List Call),
      ((Session.start name config temps).afterAll calls).code.verify = .ok ()) ∧
    ∀ (config : Config) (name : String) (program : List Stmt) (u : CodeUnit),
      (lowerUnit config name program).value = .ok u → u.verify = .ok () := by
  constructor
  · intro name config temps calls
    exact ((Session.grows_afterAll _ calls).sound (Session.sound_start name config temps)).verify
  · intro config name program u h
    obtain ⟨s, hs, rfl⟩ := lowerUnit_eq_ok h
    exact ((lowerStmts_ok hs).sound (Session.sound_start name config {})).verify

/-- A call rejected halfway on a supply that was used before, and a nested one-based subscript. -/
theorem session_code_verifies_after_rejection :
    ((Session.start "main" { indexBase := .one } { next := 8 }).afterAll
      [.stmt (.assign "y" (.call "f" [.unary .negate (.ident "x"), .subscript (.ident "x") []])),
        .expr (.subscript (.ident "x") [.ident "y"])]).code.verify = .ok () ∧
    (lowerUnit { indexBase := .one } "main"
      [.ret (.subscript (.ident "a") [.subscript (.ident "b") [.literal (.int 1)]])]).value =
        .ok { name := "main"
              instrs := #[.assign (.temp ⟨1⟩) (.element (.var ⟨"b", 1⟩) (.const (.int 0))),
                .assign (.temp ⟨2⟩) (.binary .sub (.temp ⟨1⟩) (.const (.int 1))),
                .assign (.temp ⟨3⟩) (.element (.var ⟨"a", 0⟩) (.temp ⟨2⟩)), .ret (.temp ⟨3⟩)]
              vars := ⟨[⟨"a", 0⟩, ⟨"b", 1⟩]⟩ } ∧
    CodeUnit.verify
      { name := "main"
        instrs := #[.assign (.temp ⟨1⟩) (.element (.var ⟨"b", 1⟩) (.const (.int 0))),
          .assign (.temp ⟨2⟩) (.binary .sub (.temp ⟨1⟩) (.const (.int 1))),
          .assign (.temp ⟨3⟩) (.element (.var ⟨"a", 0⟩) (.temp ⟨2⟩)), .ret (.temp ⟨3⟩)]
        vars := ⟨[⟨"a", 0⟩, ⟨"b", 1⟩]⟩ } = .ok () :=
  ⟨session_code_verifies.1 "main" { indexBase := .one } { next := 8 } _, rfl,
    session_code_verifies.2 { indexBase := .one } "main"
      [.ret (.subscript (.ident "a") [.subscript (.ident "b") [.literal (.int 1)]])] _ rfl⟩

end ThreeAddress.Lowering
