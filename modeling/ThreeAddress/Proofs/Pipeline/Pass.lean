import ThreeAddress.Proofs.Pipeline.Incremental
/-!
# One pass over the units

A compilation gets past the units that are verified and those that lower, and ends at the first unit that is neither,
where it is stuck. Behind units that are not stuck it goes on as if it began there (`compileUnits_append`), so a whole
pass is described by what it does to one unit and by where the first stuck one stands. This holds whatever stages and
code the units were given before.
-/
namespace ThreeAddress

open Code Lowering

namespace SourceUnit

/-- Not verified, and the program is rejected. -/
def isStuck (config : Config) (u : SourceUnit) : Bool :=
  match u.lowering config with
  | .ok _ => false
  | .error _ => !u.isVerified

/-- A unit that is not stuck, as a compilation leaves it. -/
def passed (config : Config) (u : SourceUnit) : SourceUnit :=
  match u.lowering config with
  | .ok code => if u.isVerified then u else u.withCode code
  | .error _ => u

variable {config : Config} {u : SourceUnit}

theorem isStuck_iff : u.isStuck config = true ↔ u.isVerified = false ∧ ∃ cause, u.lowering config = .error cause := by
  unfold isStuck
  cases u.lowering config <;> simp

theorem isStuck_of_verified (h : u.isVerified = true) : u.isStuck config = false := by
  rw [← Bool.not_eq_true, isStuck_iff]
  simp [h]

theorem lowers_of_not_isStuck (h : u.isStuck config = false) (hv : u.isVerified = false) :
    ∃ code, u.lowering config = .ok code := by
  cases hl : u.lowering config with
  | ok code => exact ⟨code, rfl⟩
  | error cause => rw [isStuck_iff.2 ⟨hv, cause, hl⟩] at h; cases h

theorem passed_of_verified (h : u.isVerified = true) : u.passed config = u := by
  unfold passed
  split
  · exact if_pos h
  · rfl

theorem passed_of_lowers {code : CodeUnit} (hv : u.isVerified = false) (h : u.lowering config = .ok code) :
    u.passed config = u.withCode code := by
  simp [passed, h, hv]

theorem isVerified_passed (h : u.isStuck config = false) : (u.passed config).isVerified = true := by
  cases hv : u.isVerified with
  | true => rw [passed_of_verified hv, hv]
  | false =>
    obtain ⟨code, hl⟩ := lowers_of_not_isStuck h hv
    rw [passed_of_lowers hv hl, isVerified_withCode]

end SourceUnit

open SourceUnit

/-! ## Lists of units -/

section
variable {config : Config} {us before : List SourceUnit} {u : SourceUnit}

/-- Behind units that are not stuck a compilation goes on as if it began there. -/
theorem compileUnits_append (h : ∀ u ∈ before, u.isStuck config = false) (rest : List SourceUnit) :
    (compileUnits config (before ++ rest)).result =
      (compileUnits config rest).result.map (· + before.countP fun u => !u.isVerified) ∧
    (compileUnits config (before ++ rest)).state = before.map (passed config) ++ (compileUnits config rest).state := by
  induction before using compileUnits_inductionOn config with
  | nil =>
    refine ⟨?_, rfl⟩
    rw [List.nil_append]
    cases (compileUnits config rest).result <;> rfl
  | verified u before hv ih =>
    obtain ⟨hr, hs⟩ := ih fun v hm => h v (List.mem_cons_of_mem _ hm)
    simp [compileUnits_cons_of_verified hv, hr, hs, hv, passed_of_verified hv]
  | lowers u before code hv hl ih =>
    obtain ⟨hr, hs⟩ := ih fun v hm => h v (List.mem_cons_of_mem _ hm)
    rw [List.cons_append, compileUnits_cons_of_lowers hv hl, hr, hs, List.map_cons, passed_of_lowers hv hl,
      List.countP_cons_of_pos (by simp [hv])]
    refine ⟨?_, rfl⟩
    cases (compileUnits config rest).result <;> rfl
  | rejected u before cause hv hl _ =>
    have hu := h u List.mem_cons_self
    rw [isStuck_iff.2 ⟨hv, cause, hl⟩] at hu
    cases hu

theorem compileUnits_of_not_stuck (h : ∀ u ∈ us, u.isStuck config = false) :
    (compileUnits config us).result = .ok (us.countP fun u => !u.isVerified) ∧
    (compileUnits config us).state = us.map (passed config) := by
  obtain ⟨hr, hs⟩ := compileUnits_append h []
  rw [List.append_nil] at hr hs
  simp [hr, hs, compileUnits, Except.map]

/-- Nothing is left to do where all units are verified. -/
theorem result_compileUnits_of_verified (h : ∀ u ∈ us, u.isVerified = true) :
    (compileUnits config us).result = .ok 0 := by
  have hcount : us.countP (fun u => !u.isVerified) = 0 := List.countP_eq_zero.2 fun u hm => by simp [h u hm]
  rw [(compileUnits_of_not_stuck fun u hm => isStuck_of_verified (h u hm)).1, hcount]

theorem compileUnits_of_stuck {cause : Rejection} (h : ∀ v ∈ before, v.isStuck config = false)
    (hv : u.isVerified = false) (hl : u.lowering config = .error cause) (after : List SourceUnit) :
    (compileUnits config (before ++ u :: after)).result = .error (.rejected u.name cause) ∧
    (compileUnits config (before ++ u :: after)).state = before.map (passed config) ++ u.withoutCode :: after := by
  obtain ⟨hr, hs⟩ := compileUnits_append h (u :: after)
  rw [compileUnits_cons_of_rejected hv hl] at hr hs
  exact ⟨hr, hs⟩

/-- The units around the first one that is stuck. -/
theorem exists_split_of_stuck {k : Nat} (h : us.findIdx? (·.isStuck config) = some k) :
    ∃ before u after cause, us = before ++ u :: after ∧ before.length = k ∧ (∀ v ∈ before, v.isStuck config = false) ∧
      u.isVerified = false ∧ u.lowering config = .error cause := by
  obtain ⟨hk, hstuck, hbefore⟩ := List.findIdx?_eq_some_iff_getElem.1 h
  obtain ⟨hv, cause, hl⟩ := isStuck_iff.1 hstuck
  refine ⟨us.take k, us[k], us.drop (k + 1), cause, by simp, by simp; omega, fun v hm => ?_, hv, hl⟩
  obtain ⟨j, hj, rfl⟩ := List.mem_take_iff_getElem.1 hm
  simpa using hbefore j (by omega)

theorem getElem?_compileUnits_of_verified {i : Nat} (hu : us[i]? = some u) (hv : u.stage = .verified) :
    (compileUnits config us).state[i]? = some u := by
  have head_verified {v : SourceUnit} {vs : List SourceUnit} (h : (v :: vs)[0]? = some u) : v.isVerified = true := by
    obtain rfl : v = u := by simpa using h
    exact isVerified_iff.2 hv
  induction us using compileUnits_inductionOn config generalizing i with
  | nil => simp at hu
  | verified v us hv' ih =>
    rw [compileUnits_cons_of_verified hv']
    cases i with
    | zero => exact hu
    | succ i => exact ih hu
  | lowers v us code hv' hl ih =>
    rw [compileUnits_cons_of_lowers hv' hl]
    cases i with
    | zero => rw [head_verified hu] at hv'; cases hv'
    | succ i => exact ih hu
  | rejected v us cause hv' hl _ =>
    rw [compileUnits_cons_of_rejected hv' hl]
    cases i with
    | zero => rw [head_verified hu] at hv'; cases hv'
    | succ i => exact hu

end

/-- Unless the unit at position `i` of `us` was verified, in `vs` it is, with the code that it lowers to. -/
def CompiledAt (config : Config) (us vs : List SourceUnit) (i : Nat) : Prop :=
  ∀ u, us[i]? = some u → u.stage ≠ .verified → ∃ code, u.lowering config = .ok code ∧ vs[i]? = some (u.withCode code)

theorem compiledAt_map_passed {config : Config} {us : List SourceUnit} (h : ∀ u ∈ us, u.isStuck config = false)
    (i : Nat) : CompiledAt config us (us.map (passed config)) i := by
  intro u hu hv
  have hv' : u.isVerified = false := by rwa [← Bool.not_eq_true, isVerified_iff]
  obtain ⟨code, hl⟩ := lowers_of_not_isStuck (h u (List.mem_of_getElem? hu)) hv'
  refine ⟨code, hl, ?_⟩
  rw [List.getElem?_map, hu, Option.map_some, passed_of_lowers hv' hl]

theorem CompiledAt.append {config : Config} {us vs us' vs' : List SourceUnit} {i : Nat} (h : CompiledAt config us vs i)
    (hlength : us.length = vs.length) (hi : i < us.length) : CompiledAt config (us ++ us') (vs ++ vs') i := by
  intro u hu hv
  rw [List.getElem?_append_left hi] at hu
  obtain ⟨code, hl, hcode⟩ := h u hu hv
  exact ⟨code, hl, by rw [List.getElem?_append_left (hlength ▸ hi), hcode]⟩

theorem Pipeline.Converges.result_eq_error {p q : Pipeline} (h : Converges p q) {e : CompileError}
    (hq : q.compileAll.result = .error e) : p.compileAll.result = .error e := by
  have hf := h.failure
  rw [hq] at hf
  cases hp : p.compileAll.result with
  | ok count => rw [hp] at hf; cases hf
  | error c => rw [hp] at hf; rw [Option.some.inj hf]

/-- What a compilation does to a pipeline in any state. Names, programs and places of all units stay, and so does every
unit that was verified. Without a unit that is stuck, all the others end verified with what they lower to, and their
number is the answer. Otherwise the first stuck unit ends failed and names the error, what stands before it is treated
as in the first case and what stands behind it is untouched. A second compilation changes nothing more. -/
theorem compileAll_ends_at_first_stuck (p : Pipeline) :
    let run := p.compileAll
    let again := run.state.compileAll
    run.state.config = p.config ∧
    run.state.units.map (fun u => (u.name, u.program)) = p.units.map (fun u => (u.name, u.program)) ∧
    (∀ (i : Nat) (u : SourceUnit), p.units[i]? = some u → u.stage = .verified → run.state.units[i]? = some u) ∧
    (∀ unit cause, run.result ≠ .error (.malformed unit cause)) ∧
    again.state = run.state ∧
    match p.units.findIdx? (·.isStuck p.config) with
    | none =>
      run.result = .ok (p.units.countP fun u => !u.isVerified) ∧
      (∀ i, CompiledAt p.config p.units run.state.units i) ∧
      again.result = .ok 0
    | some k =>
      (∃ u cause, p.units[k]? = some u ∧ u.stage ≠ .verified ∧ u.lowering p.config = .error cause ∧
        run.result = .error (.rejected u.name cause) ∧ run.state.units[k]? = some u.withoutCode) ∧
      (∀ i < k, CompiledAt p.config p.units run.state.units i) ∧
      (∀ i > k, run.state.units[i]? = p.units[i]?) ∧
      again.result = run.result := by
  intro run again
  have hagain : Pipeline.Converges run.state p := (Pipeline.Converges.refl p).compile
  refine ⟨rfl, map_compileUnits p.config p.units, fun i u hu hv => getElem?_compileUnits_of_verified hu hv, ?_⟩
  cases hk : p.units.findIdx? (·.isStuck p.config) with
  | none =>
    have h : ∀ u ∈ p.units, u.isStuck p.config = false := List.findIdx?_eq_none_iff.1 hk
    have hresult : run.result = .ok (p.units.countP fun u => !u.isVerified) := (compileUnits_of_not_stuck h).1
    have hunits : run.state.units = p.units.map (passed p.config) := (compileUnits_of_not_stuck h).2
    refine ⟨by simp [hresult], hagain.state, hresult, ?_, result_compileUnits_of_verified ?_⟩
    · rw [hunits]
      exact compiledAt_map_passed h
    · rw [hunits]
      intro u hm
      obtain ⟨v, hv, rfl⟩ := List.mem_map.1 hm
      exact isVerified_passed (h v hv)
  | some k =>
    obtain ⟨before, u, after, cause, hp, rfl, hbefore, hv, hl⟩ := exists_split_of_stuck hk
    have hrun := compileUnits_of_stuck hbefore hv hl after
    rw [← hp] at hrun
    have hresult : run.result = .error (.rejected u.name cause) := hrun.1
    have hunits : run.state.units = before.map (passed p.config) ++ u.withoutCode :: after := hrun.2
    refine ⟨by simp [hresult], hagain.state, ⟨u, cause, by simp [hp], ?_, hl, hresult, by simp [hunits]⟩, fun i hi => ?_,
      fun i hi => ?_, hresult ▸ hagain.result_eq_error hresult⟩
    · rwa [Ne, ← isVerified_iff, Bool.not_eq_true]
    · rw [hunits, hp]
      exact (compiledAt_map_passed hbefore i).append (by simp) hi
    · obtain ⟨m, rfl⟩ : ∃ m, i = before.length + (m + 1) := ⟨i - before.length - 1, by omega⟩
      rw [hunits, hp, List.getElem?_append_right (by simp), List.getElem?_append_right (by omega)]
      simp

/-- A unit set to an odd stage is compiled, a verified one is kept although its program would be rejected, the first
stuck unit loses the code it was given, and the one behind it stays as it is. -/
theorem compileAll_ends_at_first_stuck_preset :
    let f : SourceUnit :=
      { name := "f", program := [.ret (.unary .negate (.ident "x"))], stage := .lowered, code := some {} }
    let g : SourceUnit := { name := "g", program := [.expr (.subscript (.ident "x") [])], stage := .verified }
    let h : SourceUnit := { name := "h", program := [.expr (.subscript (.ident "x") [])], code := some {} }
    let last : SourceUnit := { name := "last", program := [], stage := .failed }
    let p : Pipeline := { units := [f, g, h, last] }
    p.units.findIdx? (·.isStuck p.config) = some 2 ∧
    p.compileAll.result = .error (.rejected "h" (.noIndex "x")) ∧
    CompiledAt p.config p.units p.compileAll.state.units 0 ∧
    p.compileAll.state.units[1]? = some g ∧
    p.compileAll.state.units[2]? = some h.withoutCode ∧
    p.compileAll.state.units[3]? = some last ∧
    p.compileAll.state.compileAll.state = p.compileAll.state ∧
    p.compileAll.state.compileAll.result = p.compileAll.result := by
  intro f g h last p
  have hk : p.units.findIdx? (·.isStuck p.config) = some 2 := by decide +kernel
  obtain ⟨-, -, hkept, -, hstate, hpass⟩ := compileAll_ends_at_first_stuck p
  rw [hk] at hpass
  obtain ⟨⟨u, cause, hu, -, hl, hresult, hunit⟩, hbefore, hafter, hagain⟩ := hpass
  obtain rfl : h = u := by simpa [p] using hu
  have hcause : h.lowering p.config = .error (.noIndex "x") := by rfl
  obtain rfl : Rejection.noIndex "x" = cause := by simpa [hl] using hcause.symm
  exact ⟨hk, hresult, hbefore 0 (by omega), hkept 1 g rfl rfl, hunit, hafter 3 (by omega), hstate, hagain⟩

end ThreeAddress
