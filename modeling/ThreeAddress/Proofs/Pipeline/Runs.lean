import ThreeAddress.Pipeline.Basic
import ThreeAddress.Proofs.Lowering.Verified
/-!
# Runs of a pipeline

What compiling does to a unit depends on its name and program only. If the program lowers, the code verifies as well and
the unit ends verified; if it is rejected, the unit ends failed. So `compileUnits` meets three kinds of units, and there
is one equation for each of them (`compileUnits_cons_of_verified`, `compileUnits_cons_of_lowers`,
`compileUnits_cons_of_rejected`).

A pipeline is used through `Action`s in any order. `Pipeline.after` is what a history of actions leaves, whether they
failed or not, and `Pipeline.answers` what they were answered.
-/
namespace ThreeAddress

open Source Code Lowering

namespace SourceUnit

/-- A unit as the parser hands it over. -/
def new (name : String) (program : List Stmt) : SourceUnit := { name, program }

/-- What the program of a unit lowers to. -/
def lowering (config : Config) (u : SourceUnit) : Except Rejection CodeUnit :=
  (lowerUnit config u.name u.program).value

/-! ## One unit -/

def withCode (u : SourceUnit) (code : CodeUnit) : SourceUnit := { u with stage := .verified, code := some code }

def withoutCode (u : SourceUnit) : SourceUnit := { u with stage := .failed, code := none }

@[simp] theorem isVerified_withCode (u : SourceUnit) (code : CodeUnit) : (u.withCode code).isVerified = true := rfl

@[simp] theorem isVerified_withoutCode (u : SourceUnit) : u.withoutCode.isVerified = false := rfl

theorem isVerified_iff {u : SourceUnit} : u.isVerified = true ↔ u.stage = .verified := by
  simp [isVerified]

theorem verify_of_lowers {config : Config} {u : SourceUnit} {code : CodeUnit} (h : u.lowering config = .ok code) :
    code.verify = .ok () := by
  obtain ⟨s, hs, rfl⟩ := lowerUnit_eq_ok h
  exact ((lowerStmts_ok hs).sound (Session.sound_start u.name config {})).verify

theorem compile_of_lowers {config : Config} {u : SourceUnit} {code : CodeUnit} (h : u.lowering config = .ok code) :
    (u.compile config).result = .ok () ∧ (u.compile config).state = u.withCode code := by
  have hv := verify_of_lowers h
  unfold lowering at h
  rcases hl : lowerUnit config u.name u.program with ⟨value, log⟩
  rw [hl] at h
  subst h
  simp [compile, reset, hl, CodeUnit.verifyLogged, hv, advance, Stage.next, withCode]

theorem compile_of_rejected {config : Config} {u : SourceUnit} {cause : Rejection}
    (h : u.lowering config = .error cause) :
    (u.compile config).result = .error (.rejected u.name cause) ∧ (u.compile config).state = u.withoutCode := by
  unfold lowering at h
  rcases hl : lowerUnit config u.name u.program with ⟨value, log⟩
  rw [hl] at h
  subst h
  simp [compile, reset, hl, withoutCode]

end SourceUnit

/-! ## A list of units -/

section
variable {config : Config} {u : SourceUnit} {us : List SourceUnit}

theorem compileUnits_cons_of_verified (h : u.isVerified = true) :
    compileUnits config (u :: us) =
      { compileUnits config us with state := u :: (compileUnits config us).state } := by
  simp [compileUnits, h]

theorem compileUnits_cons_of_lowers {code : CodeUnit} (hv : u.isVerified = false) (h : u.lowering config = .ok code) :
    compileUnits config (u :: us) =
      { result := (compileUnits config us).result.map (· + 1)
        state := u.withCode code :: (compileUnits config us).state
        log := (u.compile config).log ++ (compileUnits config us).log } := by
  obtain ⟨hr, hs⟩ := SourceUnit.compile_of_lowers h
  rcases hc : u.compile config with ⟨result, state, log⟩
  rw [hc] at hr hs
  simp only at hr hs
  subst hr hs
  simp [compileUnits, hv, hc]

theorem compileUnits_cons_of_rejected {cause : Rejection} (hv : u.isVerified = false)
    (h : u.lowering config = .error cause) :
    compileUnits config (u :: us) =
      { result := .error (.rejected u.name cause)
        state := u.withoutCode :: us
        log := (u.compile config).log } := by
  obtain ⟨hr, hs⟩ := SourceUnit.compile_of_rejected h
  rcases hc : u.compile config with ⟨result, state, log⟩
  rw [hc] at hr hs
  simp only at hr hs
  subst hr hs
  simp [compileUnits, hv, hc]

end

/-- Induction on a list of units by what compiling does to the first of them. -/
@[elab_as_elim]
theorem compileUnits_inductionOn {P : List SourceUnit → Prop} (config : Config) (us : List SourceUnit) (nil : P [])
    (verified : ∀ u us, u.isVerified = true → P us → P (u :: us))
    (lowers : ∀ u us code, u.isVerified = false → u.lowering config = .ok code → P us → P (u :: us))
    (rejected : ∀ u us cause, u.isVerified = false → u.lowering config = .error cause → P us → P (u :: us)) :
    P us := by
  induction us with
  | nil => exact nil
  | cons u us ih =>
    cases hv : u.isVerified with
    | true => exact verified u us hv ih
    | false =>
      cases hl : u.lowering config with
      | ok code => exact lowers u us code hv hl ih
      | error cause => exact rejected u us cause hv hl ih

/-- Compiling changes neither the names nor the programs nor their order. -/
theorem map_compileUnits (config : Config) (us : List SourceUnit) :
    (compileUnits config us).state.map (fun u => (u.name, u.program)) = us.map fun u => (u.name, u.program) := by
  induction us using compileUnits_inductionOn config with
  | nil => rfl
  | verified u us hv ih => simp [compileUnits_cons_of_verified hv, ih]
  | lowers u us code hv hl ih => simp [compileUnits_cons_of_lowers hv hl, ih, SourceUnit.withCode]
  | rejected u us cause hv hl ih => simp [compileUnits_cons_of_rejected hv hl, SourceUnit.withoutCode]

theorem map_name_compileUnits (config : Config) (us : List SourceUnit) :
    (compileUnits config us).state.map (·.name) = us.map (·.name) := by
  have h := congrArg (List.map Prod.fst) (map_compileUnits config us)
  simpa [List.map_map, Function.comp_def] using h

/-! ## Histories -/

/-- A request to a pipeline. -/
inductive Action where
  | add (u : SourceUnit)
  | compile

inductive Answer where
  | added (result : Except CompileError Unit)
  | compiled (result : Except CompileError Nat)

namespace Pipeline

/-- The answer to an action and the pipeline it leaves. -/
def act (p : Pipeline) : Action → Answer × Pipeline
  | .add u => (.added (p.add u).result, (p.add u).pipeline)
  | .compile => (.compiled p.compileAll.result, p.compileAll.state)

def after (p : Pipeline) : List Action → Pipeline
  | [] => p
  | a :: history => (p.act a).2.after history

def answers (p : Pipeline) : List Action → List Answer
  | [] => []
  | a :: history => (p.act a).1 :: (p.act a).2.answers history

theorem contains_iff {p : Pipeline} {name : String} : p.contains name = true ↔ name ∈ p.units.map (·.name) := by
  simp [contains]

theorem act_add_of_mem {p : Pipeline} {u : SourceUnit} (h : u.name ∈ p.units.map (·.name)) :
    p.act (.add u) = (.added (.error (.duplicateName u.name)), p) := by
  simp [act, add, contains_iff.2 h, Addition.result, Addition.pipeline]

theorem act_add_of_not_mem {p : Pipeline} {u : SourceUnit} (h : u.name ∉ p.units.map (·.name)) :
    p.act (.add u) = (.added (.ok ()), { p with units := p.units ++ [u] }) := by
  have hc : p.contains u.name = false := by rwa [← Bool.not_eq_true, contains_iff]
  simp [act, add, hc, Addition.result, Addition.pipeline]

theorem act_compile (p : Pipeline) :
    p.act .compile = (.compiled (compileUnits p.config p.units).result,
      { p with units := (compileUnits p.config p.units).state }) := rfl

@[simp] theorem config_act (p : Pipeline) (a : Action) : (p.act a).2.config = p.config := by
  cases a with
  | add u =>
    by_cases h : u.name ∈ p.units.map (·.name)
    · rw [act_add_of_mem h]
    · rw [act_add_of_not_mem h]
  | compile => rfl

end Pipeline

end ThreeAddress
