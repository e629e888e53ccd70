import ThreeAddress.Proofs.Lowering.Numbering
import ThreeAddress.Proofs.Pipeline.Pass
/-!
# What the log of a compilation tells

A session writes one record for every instruction and no other (`Session.Grows.recorded`), so its log can be read off
its code, also when it is rejected halfway. The closing record has the number of temporaries that the supply has given.
Since a unit is lowered with a supply of its own, this is the number of temporaries in its code
(`Session.Grows.tempCount`). From there on the log of a compilation follows the units. `passRecords` is what is written
about a unit that the compilation gets past, told by the unit as it was and the code that is stored in it then.
-/
namespace ThreeAddress

open Source Code Lowering

/-! ## Temporaries of a unit -/

/-- How many temporaries are assigned or read. -/
def Code.CodeUnit.tempCount (u : CodeUnit) : Nat :=
  (assignedTemps u.instrs.toList ++ readTemps u.instrs.toList).eraseDups.length

theorem Code.eraseDups_of_nodup {ts : List Temp} (h : ts.Nodup) : ts.eraseDups = ts := by
  induction ts with
  | nil => rfl
  | cons t ts ih =>
    obtain ⟨ht, hts⟩ := List.nodup_cons.1 h
    have hfilter : ts.filter (fun u => !u == t) = ts := by
      rw [List.filter_eq_self]
      intro u hu
      have hne : u ≠ t := fun e => ht (e ▸ hu)
      simpa using hne
    rw [List.eraseDups_cons, hfilter, ih hts]

/-- Where all that is read was assigned, and nothing twice, it is enough to count the assignments. -/
theorem Code.CodeUnit.tempCount_eq_length {u : CodeUnit} (hn : (assignedTemps u.instrs.toList).Nodup)
    (hr : ∀ t ∈ readTemps u.instrs.toList, t ∈ assignedTemps u.instrs.toList) :
    u.tempCount = (assignedTemps u.instrs.toList).length := by
  have hrest : (readTemps u.instrs.toList).removeAll (assignedTemps u.instrs.toList) = [] := by
    rw [List.removeAll, List.filter_eq_nil_iff]
    intro t ht
    simp [hr t ht]
  rw [tempCount, List.eraseDups_append, hrest, eraseDups_of_nodup hn]
  simp

/-! ## Sessions -/

/-- One record for every instruction of a unit. -/
def instrRecords (unit : String) (code : List Instr) : List Record :=
  code.map fun i => ⟨.trace, unit ++ ": " ++ i.render⟩

namespace Lowering

namespace Session

theorem Grows.code_name {s t : Session} (h : Grows s t) : t.code.name = s.code.name := by
  induction h with
  | refl => rfl
  | name _ _ ih | temp _ _ _ _ ih | assign _ _ _ _ ih | ret _ _ _ ih => exact ih

/-- The records of a session are those of its instructions. -/
def Recorded (s : Session) : Prop := s.log.toList = instrRecords s.code.name s.code.instrs.toList

theorem recorded_start (name : String) (config : Config) (temps : TempSupply) : (start name config temps).Recorded := rfl

theorem Recorded.withInstr {s : Session} (h : s.Recorded) (i : Instr) : (s.withInstr i).Recorded := by
  unfold Recorded at *
  rw [toList_instrs_withInstr, instrRecords, List.map_append]
  simp [Session.withInstr, CodeUnit.push, h, instrRecords, emittedRecord]

theorem Recorded.withTemp {s : Session} (h : s.Recorded) (source : Operand) : (s.withTemp source).Recorded := by
  have hs : Recorded { s with temps := s.temps.fresh.2 } := h
  exact hs.withInstr _

theorem Grows.recorded {s t : Session} (h : Grows s t) (hs : s.Recorded) : t.Recorded := by
  induction h with
  | refl => exact hs
  | name _ _ ih => exact ih
  | temp _ source _ _ ih => exact ih.withTemp source
  | assign _ _ _ _ ih | ret _ _ _ ih => exact ih.withInstr _

/-- A supply that is used by no one else has given the temporaries of the code. -/
theorem Grows.tempCount {name : String} {config : Config} {s : Session} (h : Grows (start name config) s) :
    s.code.tempCount = s.temps.allocated := by
  have hdense : assignedTemps s.code.instrs.toList = numbered 0 s.temps.allocated := by
    rw [← emitted_start name config {}, h.assignedTemps_emitted]
    rfl
  have hread : ∀ t ∈ readTemps s.code.instrs.toList, t ∈ assignedTemps s.code.instrs.toList := by
    intro t ht
    exact (h.sound (sound_start name config {})).wellFormed.assigned_of_read ht
  rw [CodeUnit.tempCount_eq_length (hdense ▸ nodup_numbered 0 _) hread, hdense, numbered, List.length_map,
    List.length_range']

end Session

end Lowering

/-! ## Units -/

/-- What is written about a unit whose code is stored. -/
def storedRecords (unit : String) (code : CodeUnit) : List Record :=
  instrRecords unit code.instrs.toList ++
    [⟨.debug, s!"lowered unit `{unit}`: {code.size} instructions, {code.tempCount} temporaries"⟩,
      ⟨.trace, s!"verified unit `{unit}` ({code.size} instructions)"⟩,
      ⟨.debug, code.render⟩]

/-- What is written about a unit that is rejected behind the given instructions. -/
def rejectedRecords (unit : String) (emitted : List Instr) (cause : Rejection) : List Record :=
  instrRecords unit emitted ++ [⟨.warn, s!"unit `{unit}` failed to lower: {cause.message}"⟩]

/-- What is written about a unit that a compilation gets past, as the unit was and as it is then. -/
def passRecords : SourceUnit × SourceUnit → List Record
  | (old, new) => if old.isVerified then [] else new.code.toList.flatMap (storedRecords old.name)

namespace SourceUnit

variable {config : Config} {u : SourceUnit}

theorem log_compile_of_lowers {code : CodeUnit} (h : u.lowering config = .ok code) :
    (u.compile config).log.toList = storedRecords u.name code := by
  have hverify := verify_of_lowers h
  obtain ⟨s, hs, rfl⟩ := lowerUnit_eq_ok h
  have hgrows := lowerStmts_ok hs
  have hname : s.code.name = u.name := hgrows.code_name
  have hlog : s.log.toList = instrRecords u.name s.code.instrs.toList := by
    rw [hgrows.recorded (Session.recorded_start u.name config {}), hname]
  have hunit : lowerUnit config u.name u.program = ⟨.ok s.code, s.log.push s.finishedRecord⟩ := by
    rw [lowerUnit, hs]
    rfl
  simp [compile, reset, hunit, CodeUnit.verifyLogged, hverify, storedRecords, hlog, Session.finishedRecord,
    CodeUnit.verifiedRecord, hname, hgrows.tempCount]

theorem log_compile_of_rejected {cause : Rejection} {s : Session}
    (h : lowerStmts u.program (Session.start u.name config) = .error cause s) :
    (u.compile config).log.toList = rejectedRecords u.name s.code.instrs.toList cause := by
  have hgrows : Session.Grows (Session.start u.name config) s := by
    have hgrown := lowerStmts_grown u.program (Session.start u.name config)
    rw [h] at hgrown
    exact hgrown
  have hlog : s.log.toList = instrRecords u.name s.code.instrs.toList := by
    rw [hgrows.recorded (Session.recorded_start u.name config {}), hgrows.code_name]
    rfl
  have hunit : lowerUnit config u.name u.program = ⟨.error cause, s.log⟩ := by
    rw [lowerUnit, h]
  simp [compile, reset, hunit, rejectedRecords, hlog]

theorem exists_session_of_rejected {cause : Rejection} (h : u.lowering config = .error cause) :
    ∃ s, lowerStmts u.program (Session.start u.name config) = .error cause s := by
  have hr : rejection? (lowerStmts u.program (Session.start u.name config)) = some cause := lowerUnit_eq_error_iff.1 h
  cases hs : lowerStmts u.program (Session.start u.name config) with
  | ok a s =>
    rw [hs] at hr
    cases hr
  | error e s =>
    rw [hs] at hr
    obtain rfl : e = cause := Option.some.inj hr
    exact ⟨s, rfl⟩

end SourceUnit

open SourceUnit

/-! ## A pass -/

namespace Pipeline

theorem log_compileAll_of_ok (p : Pipeline) {count : Nat} (h : p.compileAll.result = .ok count) :
    p.compileAll.log.toList =
      (compileUnits p.config p.units).log.toList ++ [⟨.info, s!"compiled {count} of {p.units.length} unit(s)"⟩] := by
  have hunits : (compileUnits p.config p.units).result = .ok count := h
  simp [compileAll, hunits]

theorem log_compileAll_of_error (p : Pipeline) {e : CompileError} (h : p.compileAll.result = .error e) :
    p.compileAll.log.toList = (compileUnits p.config p.units).log.toList := by
  have hunits : (compileUnits p.config p.units).result = .error e := h
  simp [compileAll, hunits]

end Pipeline

section
variable {config : Config} {before : List SourceUnit}

/-- What is written about the units that a compilation gets past stands in front of all else. -/
theorem log_compileUnits_append (h : ∀ u ∈ before, u.isStuck config = false) (rest : List SourceUnit) :
    (compileUnits config (before ++ rest)).log.toList =
      (before.zip (before.map (passed config))).flatMap passRecords ++ (compileUnits config rest).log.toList := by
  induction before using compileUnits_inductionOn config with
  | nil => rfl
  | verified u before hv ih =>
    have hrest := ih fun v hm => h v (List.mem_cons_of_mem _ hm)
    simp [compileUnits_cons_of_verified hv, hrest, passRecords, hv]
  | lowers u before code hv hl ih =>
    have hrest := ih fun v hm => h v (List.mem_cons_of_mem _ hm)
    simp [compileUnits_cons_of_lowers hv hl, hrest, passRecords, hv, passed_of_lowers hv hl, withCode,
      log_compile_of_lowers hl]
  | rejected u before cause hv hl _ =>
    have hu := h u List.mem_cons_self
    rw [isStuck_iff.2 ⟨hv, cause, hl⟩] at hu
    cases hu

end

/-- The log of a compilation of a pipeline in any state. About each unit that it gets past, in the order of the units:
nothing if the unit was verified, and otherwise the instructions of the code that is stored in it then, with the size and
the number of temporaries of that code and its text. If no unit is rejected, one record more has the number of units that
were compiled, which is the answer, and of all units. Otherwise the log ends with the unit that is rejected: the
instructions that were emitted before the defect was met, and the cause. -/
theorem log_tells_what_happened (p : Pipeline) :
    let run := p.compileAll
    match run.result with
    | .ok count =>
      (∀ i, CompiledAt p.config p.units run.state.units i) ∧
      run.log.toList = (p.units.zip run.state.units).flatMap passRecords ++
        [⟨.info, s!"compiled {count} of {p.units.length} unit(s)"⟩]
    | .error e =>
      ∃ k u cause s, p.units[k]? = some u ∧ u.stage ≠ .verified ∧
        lowerStmts u.program (Session.start u.name p.config) = .error cause s ∧ e = .rejected u.name cause ∧
        (∀ i < k, CompiledAt p.config p.units run.state.units i) ∧
        run.log.toList = ((p.units.zip run.state.units).take k).flatMap passRecords ++
          rejectedRecords u.name s.code.instrs.toList cause := by
  intro run
  cases hk : p.units.findIdx? (·.isStuck p.config) with
  | none =>
    have h : ∀ u ∈ p.units, u.isStuck p.config = false := List.findIdx?_eq_none_iff.1 hk
    have hresult : run.result = .ok (p.units.countP fun u => !u.isVerified) := (compileUnits_of_not_stuck h).1
    have hunits : run.state.units = p.units.map (passed p.config) := (compileUnits_of_not_stuck h).2
    have hlog := log_compileUnits_append h []
    rw [List.append_nil, ← hunits] at hlog
    rw [hresult]
    refine ⟨hunits ▸ compiledAt_map_passed h, ?_⟩
    rw [p.log_compileAll_of_ok hresult, hlog]
    simp [compileUnits]
  | some k =>
    obtain ⟨before, u, after, cause, hp, rfl, hbefore, hv, hl⟩ := exists_split_of_stuck hk
    obtain ⟨s, hs⟩ := exists_session_of_rejected hl
    have hrun := compileUnits_of_stuck hbefore hv hl after
    have hlog := log_compileUnits_append hbefore (u :: after)
    rw [← hp] at hrun hlog
    have hresult : run.result = .error (.rejected u.name cause) := hrun.1
    have hunits : run.state.units = before.map (passed p.config) ++ u.withoutCode :: after := hrun.2
    have hpast : (p.units.zip run.state.units).take before.length = before.zip (before.map (passed p.config)) := by
      rw [hunits, hp, List.zip_append (by simp), List.take_left' (by simp)]
    rw [hresult]
    refine ⟨before.length, u, cause, s, by simp [hp], ?_, hs, rfl, fun i hi => ?_, ?_⟩
    · rwa [Ne, ← isVerified_iff, Bool.not_eq_true]
    · rw [hunits, hp]
      exact (compiledAt_map_passed hbefore i).append (by simp) hi
    · rw [p.log_compileAll_of_error hresult, hlog, hpast, compileUnits_cons_of_rejected hv hl, log_compile_of_rejected hs]

/-- A unit that is compiled, one that was verified and one that is rejected in its second statement. -/
example :
    let p : Pipeline :=
      { units := [
          { name := "f", program := [.ret (.unary .negate (.ident "x"))] },
          { name := "g", program := [.ret (.ident "x")], stage := .verified },
          { name := "h", program := [.expr (.call "f" []), .ret (.subscript (.ident "x") [])] }] }
    p.compileAll.log.toList =
      [⟨.trace, "f: t1 := -x"⟩, ⟨.trace, "f: return t1"⟩,
        ⟨.debug, "lowered unit `f`: 2 instructions, 1 temporaries"⟩,
        ⟨.trace, "verified unit `f` (2 instructions)"⟩,
        ⟨.debug, "unit f:\n   0: t1 := -x\n   1: return t1\n"⟩,
        ⟨.trace, "h: t1 := f()"⟩,
        ⟨.warn, "unit `h` failed to lower: subscript of `x` has no index"⟩] := by
  decide +kernel

end ThreeAddress
