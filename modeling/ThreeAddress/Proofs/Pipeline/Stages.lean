import ThreeAddress.Proofs.Pipeline.Runs
/-!
# The stages of a pipeline

The units of a pipeline that are added as they were parsed stand in three groups: first those that are verified, then at
most one that failed, then those that wait. What a unit holds agrees with what its program lowers to.

`Orderly` is the invariant. An addition puts a unit that waits at the end. A compilation leaves the verified units alone,
and the first of the others either lowers and joins them or becomes the one that failed (`Orderly.compileUnits`). A
unit that failed before is tried again and fails again.
-/
namespace ThreeAddress

open Source Code Lowering

/-- Some verified stages, then at most one failed, then only parsed ones. -/
inductive InOrder : List Stage → Prop
  | waiting {stages : List Stage} (h : ∀ stage ∈ stages, stage = .parsed) : InOrder stages
  | stuck {stages : List Stage} (h : ∀ stage ∈ stages, stage = .parsed) : InOrder (.failed :: stages)
  | done {stages : List Stage} (h : InOrder stages) : InOrder (.verified :: stages)

/-- What a unit holds is what its program lowers to, as far as its stage says. -/
def SourceUnit.Faithful (config : Config) (u : SourceUnit) : Prop :=
  match u.stage with
  | .parsed => u.code = none
  | .lowered => False
  | .verified => ∃ code, u.code = some code ∧ u.lowering config = .ok code ∧ code.verify = .ok ()
  | .failed => u.code = none ∧ ∃ cause, u.lowering config = .error cause

structure Orderly (config : Config) (us : List SourceUnit) : Prop where
  names : (us.map (·.name)).Nodup
  stages : InOrder (us.map (·.stage))
  faithful : ∀ u ∈ us, u.Faithful config

/-! ## Order -/

namespace InOrder

theorem concat_parsed {stages : List Stage} (h : InOrder stages) : InOrder (stages ++ [.parsed]) := by
  have parsed_concat {ss : List Stage} (hs : ∀ stage ∈ ss, stage = .parsed) :
      ∀ stage ∈ ss ++ [.parsed], stage = .parsed := by
    intro stage hm
    rcases List.mem_append.1 hm with hm | hm
    · exact hs stage hm
    · exact List.mem_singleton.1 hm
  induction h with
  | waiting h => exact .waiting (parsed_concat h)
  | stuck h => exact .stuck (parsed_concat h)
  | done _ ih => exact .done ih

/-- What stands behind a first stage that is not verified is parsed. -/
theorem tail_parsed {first : Stage} {stages : List Stage} (h : InOrder (first :: stages)) (hf : first ≠ .verified) :
    ∀ stage ∈ stages, stage = .parsed := by
  cases h with
  | waiting h => exact fun stage hm => h stage (List.mem_cons_of_mem _ hm)
  | stuck h => exact h
  | done h => exact absurd rfl hf

theorem tail {first : Stage} {stages : List Stage} (h : InOrder (first :: stages)) : InOrder stages := by
  cases h with
  | waiting h => exact .waiting fun stage hm => h stage (List.mem_cons_of_mem _ hm)
  | stuck h => exact .waiting h
  | done h => exact h

end InOrder

/-! ## Units -/

namespace SourceUnit

theorem faithful_new (config : Config) (name : String) (program : List Stmt) : (new name program).Faithful config := rfl

theorem faithful_withCode {config : Config} {u : SourceUnit} {code : CodeUnit} (h : u.lowering config = .ok code) :
    (u.withCode code).Faithful config :=
  ⟨code, rfl, h, verify_of_lowers h⟩

theorem faithful_withoutCode {config : Config} {u : SourceUnit} {cause : Rejection}
    (h : u.lowering config = .error cause) : u.withoutCode.Faithful config :=
  ⟨rfl, cause, h⟩

theorem stage_ne_verified {u : SourceUnit} (h : u.isVerified = false) : u.stage ≠ .verified := by
  intro hs
  rw [isVerified_iff.2 hs] at h
  cases h

end SourceUnit

theorem inOrder_compileUnits {config : Config} {us : List SourceUnit} (h : InOrder (us.map (·.stage))) :
    InOrder ((compileUnits config us).state.map (·.stage)) := by
  induction us using compileUnits_inductionOn config with
  | nil => exact h
  | verified u us hv ih =>
    rw [compileUnits_cons_of_verified hv, List.map_cons, SourceUnit.isVerified_iff.1 hv]
    exact .done (ih h.tail)
  | lowers u us code hv hl ih =>
    rw [compileUnits_cons_of_lowers hv hl]
    exact .done (ih h.tail)
  | rejected u us cause hv hl _ =>
    rw [compileUnits_cons_of_rejected hv hl]
    exact .stuck (h.tail_parsed (SourceUnit.stage_ne_verified hv))

theorem faithful_compileUnits {config : Config} {us : List SourceUnit} (h : ∀ u ∈ us, u.Faithful config) :
    ∀ u ∈ (compileUnits config us).state, u.Faithful config := by
  induction us using compileUnits_inductionOn config with
  | nil => exact h
  | verified u us hv ih =>
    rw [compileUnits_cons_of_verified hv]
    exact List.forall_mem_cons.2 ⟨h u List.mem_cons_self, ih fun v hm => h v (List.mem_cons_of_mem _ hm)⟩
  | lowers u us code hv hl ih =>
    rw [compileUnits_cons_of_lowers hv hl]
    exact List.forall_mem_cons.2 ⟨u.faithful_withCode hl, ih fun v hm => h v (List.mem_cons_of_mem _ hm)⟩
  | rejected u us cause hv hl _ =>
    rw [compileUnits_cons_of_rejected hv hl]
    exact List.forall_mem_cons.2 ⟨u.faithful_withoutCode hl, fun v hm => h v (List.mem_cons_of_mem _ hm)⟩

/-! ## Actions -/

theorem Orderly.compileUnits {config : Config} {us : List SourceUnit} (h : Orderly config us) :
    Orderly config (compileUnits config us).state where
  names := by
    rw [map_name_compileUnits]
    exact h.names
  stages := inOrder_compileUnits h.stages
  faithful := faithful_compileUnits h.faithful

theorem Orderly.concat_new {config : Config} {us : List SourceUnit} (h : Orderly config us) {name : String}
    (hn : name ∉ us.map (·.name)) (program : List Stmt) : Orderly config (us ++ [.new name program]) where
  names := by
    rw [List.map_append, List.nodup_append]
    refine ⟨h.names, by simp, ?_⟩
    intro a ha b hb hab
    rw [List.map_singleton, List.mem_singleton] at hb
    rw [hab, hb] at ha
    exact hn ha
  stages := by
    rw [List.map_append]
    exact h.stages.concat_parsed
  faithful u hu := by
    rcases List.mem_append.1 hu with hu | hu
    · exact h.faithful u hu
    · rw [List.mem_singleton.1 hu]
      exact SourceUnit.faithful_new config name program

namespace Pipeline

theorem orderly_act {p : Pipeline} (h : Orderly p.config p.units) {a : Action}
    (ha : ∀ u, a = .add u → u = .new u.name u.program) : Orderly (p.act a).2.config (p.act a).2.units := by
  cases a with
  | compile => exact h.compileUnits
  | add u =>
    by_cases hm : u.name ∈ p.units.map (·.name)
    · rw [act_add_of_mem hm]
      exact h
    · rw [act_add_of_not_mem hm, ha u rfl]
      exact h.concat_new hm u.program

theorem orderly_after {history : List Action} {p : Pipeline} (h : Orderly p.config p.units)
    (ha : ∀ u, .add u ∈ history → u = .new u.name u.program) :
    Orderly p.config (p.after history).units := by
  induction history generalizing p with
  | nil => exact h
  | cons a history ih =>
    have hact := orderly_act h (a := a) fun u hu => ha u (hu ▸ List.mem_cons_self)
    have hrest := ih hact fun u hu => ha u (List.mem_cons_of_mem _ hu)
    rwa [config_act] at hrest

/-! ## What was added -/

/-- The unit of an addition that was answered without an error. -/
def acceptedUnit? : Action × Answer → Option SourceUnit
  | (.add u, .added (.ok ())) => some u
  | _ => none

/-- The units of the additions that succeed in a history, in their order. -/
def accepted (p : Pipeline) (history : List Action) : List SourceUnit :=
  (history.zip (p.answers history)).filterMap acceptedUnit?

theorem accepted_cons (p : Pipeline) (a : Action) (history : List Action) :
    p.accepted (a :: history) = (acceptedUnit? (a, (p.act a).1)).toList ++ (p.act a).2.accepted history := by
  simp only [accepted, answers, List.zip_cons_cons, List.filterMap_cons]
  cases acceptedUnit? (a, (p.act a).1) <;> rfl

theorem map_units_after (p : Pipeline) (history : List Action) :
    (p.after history).units.map (fun u => (u.name, u.program)) =
      (p.units ++ p.accepted history).map fun u => (u.name, u.program) := by
  induction history generalizing p with
  | nil => simp [after, accepted]
  | cons a history ih =>
    rw [after, ih, accepted_cons]
    cases a with
    | compile =>
      rw [act_compile]
      simp [acceptedUnit?, map_compileUnits]
    | add u =>
      by_cases hm : u.name ∈ p.units.map (·.name)
      · rw [act_add_of_mem hm]
        simp [acceptedUnit?]
      · rw [act_add_of_not_mem hm]
        simp [acceptedUnit?]

end Pipeline

/-- After any history of additions and compilations, failed ones included, names are distinct, the units are those of the
additions that succeeded, in that order, an addition is refused exactly if its name is taken and then changes nothing,
and the stages are in order and agree with what the units hold. -/
theorem pipeline_orderly_after_history (config : Config) (history : List Action)
    (hnew : ∀ u, .add u ∈ history → u = .new u.name u.program) :
    let start : Pipeline := { config }
    let p := start.after history
    (p.units.map (·.name)).Nodup ∧
    p.units.map (fun u => (u.name, u.program)) = (start.accepted history).map (fun u => (u.name, u.program)) ∧
    (∀ u, u.name ∈ p.units.map (·.name) → p.act (.add u) = (.added (.error (.duplicateName u.name)), p)) ∧
    (∀ u, u.name ∉ p.units.map (·.name) →
      p.act (.add u) = (.added (.ok ()), { p with units := p.units ++ [u] })) ∧
    InOrder (p.units.map (·.stage)) ∧
    ∀ u ∈ p.units, u.Faithful config := by
  intro start p
  have hstart : Orderly config start.units := ⟨List.nodup_nil, .waiting (by simp [start]), by simp [start]⟩
  have h : Orderly config p.units := Pipeline.orderly_after (p := start) hstart hnew
  refine ⟨h.names, ?_, fun u => Pipeline.act_add_of_mem, fun u => Pipeline.act_add_of_not_mem, h.stages, h.faithful⟩
  simpa [start] using Pipeline.map_units_after start history

/-- A unit is verified, its name is refused, the next unit fails twice and one waits behind it. -/
theorem pipeline_orderly_after_retry :
    let f := SourceUnit.new "f" [.ret (.unary .negate (.ident "x"))]
    let g := SourceUnit.new "g" [.expr (.subscript (.ident "x") [])]
    let h := SourceUnit.new "h" []
    let p := ({ config := {} } : Pipeline).after [.add f, .compile, .add f, .add g, .compile, .add h, .compile]
    p.units.map (·.name) = ["f", "g", "h"] ∧ p.units.map (·.stage) = [.verified, .failed, .parsed] ∧
    InOrder (p.units.map (·.stage)) ∧ ∀ u ∈ p.units, u.Faithful {} := by
  intro f g h p
  refine ⟨by decide +kernel, by decide +kernel, (pipeline_orderly_after_history {} _ ?_).2.2.2.2⟩
  intro u hu
  simp only [List.mem_cons, reduceCtorEq, Action.add.injEq, List.not_mem_nil, or_false, false_or] at hu
  rcases hu with rfl | rfl | rfl | rfl <;> rfl

end ThreeAddress
