import ThreeAddress.Proofs.Pipeline.Runs
/-!
# Compiling in between changes nothing

Units may be compiled as they come in or all at once. `ending` is what a compilation leaves and the error it ends with,
if any. A compilation that goes on behind an earlier one ends as if there had been none (`ending_resume`): verified
units are skipped, and a unit that failed fails again with the same error. Hence two pipelines with the same ending keep
the same ending, whatever is added to both and however often one of them is compiled.
-/
namespace ThreeAddress

open Code Lowering

def failure? {α : Type} : Except CompileError α → Option CompileError
  | .ok _ => none
  | .error e => some e

@[simp] theorem failure?_map {α β : Type} (f : α → β) (r : Except CompileError α) : failure? (r.map f) = failure? r := by
  cases r <;> rfl

/-- The units that a compilation leaves, and the error it ends with. How many units it compiled is left out. -/
def ending (config : Config) (us : List SourceUnit) : List SourceUnit × Option CompileError :=
  ((compileUnits config us).state, failure? (compileUnits config us).result)

section
variable {config : Config} {u : SourceUnit} {us : List SourceUnit}

theorem ending_cons_of_verified (h : u.isVerified = true) :
    ending config (u :: us) = (u :: (ending config us).1, (ending config us).2) := by
  simp [ending, compileUnits_cons_of_verified h]

theorem ending_cons_of_lowers {code : CodeUnit} (hv : u.isVerified = false) (h : u.lowering config = .ok code) :
    ending config (u :: us) = (u.withCode code :: (ending config us).1, (ending config us).2) := by
  simp [ending, compileUnits_cons_of_lowers hv h]

theorem ending_cons_of_rejected {cause : Rejection} (hv : u.isVerified = false) (h : u.lowering config = .error cause) :
    ending config (u :: us) = (u.withoutCode :: us, some (.rejected u.name cause)) := by
  simp [ending, compileUnits_cons_of_rejected hv h, failure?]

end

/-- Whether the units in front were compiled before makes no difference to how a compilation ends. -/
theorem ending_resume (config : Config) (us more : List SourceUnit) :
    ending config ((ending config us).1 ++ more) = ending config (us ++ more) := by
  induction us using compileUnits_inductionOn config with
  | nil => rfl
  | verified u us hv ih =>
    rw [ending_cons_of_verified hv, List.cons_append, List.cons_append, ending_cons_of_verified hv,
      ending_cons_of_verified hv, ih]
  | lowers u us code hv hl ih =>
    -- the second time the unit is skipped
    rw [ending_cons_of_lowers hv hl, List.cons_append, List.cons_append, ending_cons_of_lowers hv hl,
      ending_cons_of_verified (u.isVerified_withCode code), ih]
  | rejected u us cause hv hl _ =>
    -- the second time the unit is rejected for the same cause, and nothing behind it was touched
    have hl' : u.withoutCode.lowering config = .error cause := hl
    rw [ending_cons_of_rejected hv hl, List.cons_append, List.cons_append, ending_cons_of_rejected hv hl,
      ending_cons_of_rejected u.isVerified_withoutCode hl']
    rfl

namespace Pipeline

/-- Two pipelines that compile to the same units with the same error. -/
structure Converges (p q : Pipeline) : Prop where
  config : p.config = q.config
  ending : ending p.config p.units = ending q.config q.units

namespace Converges

variable {p q : Pipeline}

theorem refl (p : Pipeline) : Converges p p := ⟨rfl, rfl⟩

theorem state (h : Converges p q) : p.compileAll.state = q.compileAll.state := by
  simp only [compileAll, Pipeline.mk.injEq]
  exact ⟨h.config, congrArg Prod.fst h.ending⟩

theorem failure (h : Converges p q) : failure? p.compileAll.result = failure? q.compileAll.result :=
  congrArg Prod.snd h.ending

theorem names (h : Converges p q) : p.units.map (·.name) = q.units.map (·.name) := by
  have hs : (compileUnits p.config p.units).state = (compileUnits q.config q.units).state := congrArg Prod.fst h.ending
  rw [← map_name_compileUnits p.config p.units, hs, map_name_compileUnits]

theorem compile (h : Converges p q) : Converges (p.act .compile).2 q where
  config := h.config
  ending := by
    have hr := ending_resume p.config p.units []
    rw [List.append_nil, List.append_nil] at hr
    exact hr.trans h.ending

theorem concat (h : Converges p q) (u : SourceUnit) :
    Converges { p with units := p.units ++ [u] } { q with units := q.units ++ [u] } where
  config := h.config
  ending := by
    calc ThreeAddress.ending p.config (p.units ++ [u])
        = ThreeAddress.ending p.config ((ThreeAddress.ending p.config p.units).1 ++ [u]) :=
          (ending_resume p.config p.units [u]).symm
      _ = ThreeAddress.ending q.config ((ThreeAddress.ending q.config q.units).1 ++ [u]) := by rw [h.ending, h.config]
      _ = ThreeAddress.ending q.config (q.units ++ [u]) := ending_resume q.config q.units [u]

/-- The same addition is answered alike and keeps the two together. -/
theorem add (h : Converges p q) (u : SourceUnit) :
    (p.act (.add u)).1 = (q.act (.add u)).1 ∧ Converges (p.act (.add u)).2 (q.act (.add u)).2 := by
  by_cases hm : u.name ∈ p.units.map (·.name)
  · rw [act_add_of_mem hm, act_add_of_mem (h.names ▸ hm)]
    exact ⟨rfl, h⟩
  · rw [act_add_of_not_mem hm, act_add_of_not_mem (h.names ▸ hm)]
    exact ⟨rfl, h.concat u⟩

end Converges

end Pipeline

/-! ## Histories -/

def Action.isAddition : Action → Bool
  | .add _ => true
  | .compile => false

/-- The answer to an addition. -/
def Answer.added? : Answer → Option (Except CompileError Unit)
  | .added result => some result
  | .compiled _ => none

namespace Pipeline

theorem converges_after_additions {p q : Pipeline} (h : Converges p q) (history : List Action) :
    Converges (p.after history) (q.after (history.filter Action.isAddition)) ∧
    (p.answers history).filterMap Answer.added? =
      (q.answers (history.filter Action.isAddition)).filterMap Answer.added? := by
  induction history generalizing p q with
  | nil => exact ⟨h, rfl⟩
  | cons a history ih =>
    cases a with
    | compile =>
      obtain ⟨hc, ha⟩ := ih h.compile
      exact ⟨hc, ha⟩
    | add u =>
      obtain ⟨hanswer, hpq⟩ := h.add u
      obtain ⟨hc, ha⟩ := ih hpq
      refine ⟨hc, ?_⟩
      rw [List.filter_cons_of_pos (by rfl), answers, answers, List.filterMap_cons, List.filterMap_cons, hanswer, ha]

end Pipeline

/-- However compilations are mixed into a list of additions, one more compilation at the end leaves what a single one
after all additions leaves, with the same error if it fails, and every addition is answered alike. -/
theorem compileAll_incremental_eq_batch (p : Pipeline) (history : List Action) :
    let additions := history.filter Action.isAddition
    let incremental := (p.after history).compileAll
    let batch := (p.after additions).compileAll
    incremental.state = batch.state ∧
    incremental.state.dump = batch.state.dump ∧
    failure? incremental.result = failure? batch.result ∧
    (p.answers history).filterMap Answer.added? = (p.answers additions).filterMap Answer.added? := by
  intro additions incremental batch
  obtain ⟨hc, hanswers⟩ := Pipeline.converges_after_additions (.refl p) history
  exact ⟨hc.state, congrArg Pipeline.dump hc.state, hc.failure, hanswers⟩

end ThreeAddress
