import ThreeAddress.Proofs.Code.WellFormed
/-!
# The fault that verification reports

Verification ends at the first instruction that does not fit the well-formed code before it. `Breaks done i fault` says
what such an instruction `i` does wrong behind `done`: several rules may be broken at once, and the constructors are in
the order in which they are tried, each one assuming that none before it applies. Of the temporaries that occur in an
operand and are not assigned the first in the order of `walk` counts. The table of producers never shows in it.
`verifyFrom_eq_error_iff` is the whole of what verification reports; that the code before the fault verifies and that
nothing behind it matters can be read off from there.
-/
namespace ThreeAddress.Code

/-- The position of the instruction that is at fault. -/
def Malformed.position : Malformed → Nat
  | .nestedComposite position _ _ => position
  | .compositeReturn position _ => position
  | .reassignedTemp _ _ position => position
  | .undefinedTemp _ position => position

/-- What an instruction that stands behind `done` does wrong. -/
inductive Breaks (done : List Instr) : Instr → Malformed → Prop
  | nested {target : Target} {source sub : Operand} {left right : List Operand}
      (hsubs : source.subOperands = left ++ sub :: right) (hleft : ∀ o ∈ left, o.isSimple = true)
      (hsub : sub.isComposite = true) :
      Breaks done (.assign target source) (.nestedComposite done.length source.render sub.render)
  | compositeReturn {value : Operand} (hvalue : value.isComposite = true) :
      Breaks done (.ret value) (.compositeReturn done.length value.render)
  | undefined {i : Instr} {t : Temp} {left right : List Temp} (hflat : i.IsFlat)
      (htemps : i.source.temps = left ++ t :: right) (hleft : ∀ r ∈ left, ∃ j, Produces done j r)
      (ht : ∀ j, ¬ Produces done j t) : Breaks done i (.undefinedTemp t done.length)
  | reassigned {t : Temp} {source : Operand} {first : Nat} (hflat : (Instr.assign (.temp t) source).IsFlat)
      (htemps : ∀ r, (Operand.temp r).Occurs source → ∃ j, Produces done j r) (hfirst : Produces done first t)
      (honly : ∀ j, Produces done j t → j = first) :
      Breaks done (.assign (.temp t) source) (.reassignedTemp t first done.length)

theorem Breaks.position {done : List Instr} {i : Instr} {fault : Malformed} (h : Breaks done i fault) :
    fault.position = done.length := by
  cases h <;> rfl

/-! ## One instruction -/

namespace Instr

theorem misshape?_eq_some_iff {i : Instr} {position : Nat} {fault : Malformed} :
    i.misshape? position = some fault ↔
      (∃ target source sub left right, i = .assign target source ∧ source.subOperands = left ++ sub :: right ∧
        (∀ o ∈ left, o.isSimple = true) ∧ sub.isComposite = true ∧
        fault = .nestedComposite position source.render sub.render) ∨
      ∃ value, i = .ret value ∧ value.isComposite = true ∧ fault = .compositeReturn position value.render := by
  cases i with
  | assign target source =>
    simp only [misshape?, Option.map_eq_some_iff, List.find?_eq_some_iff_append]
    constructor
    · rintro ⟨sub, ⟨hsub, left, right, hsubs, hleft⟩, rfl⟩
      refine .inl ⟨target, source, sub, left, right, rfl, hsubs, fun o ho => ?_, hsub, rfl⟩
      simpa [Operand.isComposite] using hleft o ho
    · rintro (⟨_, _, sub, left, right, ⟨rfl, rfl⟩, hsubs, hleft, hsub, rfl⟩ | ⟨value, hi, -⟩)
      · exact ⟨sub, ⟨hsub, left, right, hsubs, fun o ho => by simp [Operand.isComposite, hleft o ho]⟩, rfl⟩
      · cases hi
  | ret value =>
    simp only [misshape?, Option.ite_none_right_eq_some, Option.some.injEq]
    constructor
    · rintro ⟨hvalue, rfl⟩
      exact .inr ⟨value, rfl, hvalue, rfl⟩
    · rintro (⟨_, _, _, _, _, hi, -⟩ | ⟨_, ⟨rfl⟩, hvalue, rfl⟩)
      · cases hi
      · exact ⟨hvalue, rfl⟩

section
variable {i : Instr} {producers : Producers} {done : List Instr} {position : Nat} {fault : Malformed}

theorem undefinedUse?_eq_some_iff (h : producers.Tracks done) :
    i.undefinedUse? producers position = some fault ↔
      ∃ t left right, i.source.temps = left ++ t :: right ∧ (∀ r ∈ left, ∃ j, Produces done j r) ∧
        (∀ j, ¬ Produces done j t) ∧ fault = .undefinedTemp t position := by
  simp only [undefinedUse?, usedTemps, Option.map_eq_some_iff, List.find?_eq_some_iff_append, Option.isNone_iff_eq_none,
    h.lookup_eq_none_iff, Bool.not_eq_true', Option.isNone_eq_false_iff, h.isSome_lookup_iff]
  constructor
  · rintro ⟨t, ⟨ht, left, right, htemps, hleft⟩, rfl⟩
    exact ⟨t, left, right, htemps, hleft, ht, rfl⟩
  · rintro ⟨t, left, right, htemps, hleft, ht, rfl⟩
    exact ⟨t, ⟨ht, left, right, htemps, hleft⟩, rfl⟩

theorem redefinition?_eq_some_iff (h : producers.Tracks done) :
    i.redefinition? producers position = some fault ↔
      ∃ t source first, i = .assign (.temp t) source ∧ Produces done first t ∧ (∀ j, Produces done j t → j = first) ∧
        fault = .reassignedTemp t first position := by
  simp only [redefinition?, Option.bind_eq_some_iff, Option.map_eq_some_iff, producedTemp?_eq_some_iff]
  constructor
  · rintro ⟨t, ⟨source, rfl⟩, first, hfirst, rfl⟩
    refine ⟨t, source, first, rfl, (h t first).1 hfirst, fun j hj => ?_, rfl⟩
    have hlookup := (h t j).2 hj
    rw [hfirst] at hlookup
    exact (Option.some.inj hlookup).symm
  · rintro ⟨t, source, first, rfl, hfirst, -, rfl⟩
    exact ⟨t, ⟨source, rfl⟩, first, (h t first).2 hfirst, rfl⟩

/-- With a table that tracks the code before it, the fault found in an instruction is the rule that it breaks. -/
theorem fault?_eq_some_iff (h : producers.Tracks done) :
    i.fault? producers done.length = some fault ↔ Breaks done i fault := by
  rw [fault?, Option.or_eq_some_iff, Option.or_eq_some_iff, misshape?_eq_some_iff, misshape?_eq_none_iff,
    undefinedUse?_eq_some_iff h, undefinedUse?_eq_none_iff h, redefinition?_eq_some_iff h]
  constructor
  · rintro ((⟨target, source, sub, left, right, rfl, hsubs, hleft, hsub, rfl⟩ | ⟨value, rfl, hvalue, rfl⟩) |
      ⟨hflat, ⟨t, left, right, htemps, hleft, ht, rfl⟩ | ⟨htemps, t, source, first, rfl, hfirst, honly, rfl⟩⟩)
    · exact .nested hsubs hleft hsub
    · exact .compositeReturn hvalue
    · exact .undefined hflat htemps hleft ht
    · exact .reassigned hflat htemps hfirst honly
  · intro hb
    cases hb with
    | nested hsubs hleft hsub => exact .inl (.inl ⟨_, _, _, _, _, rfl, hsubs, hleft, hsub, rfl⟩)
    | compositeReturn hvalue => exact .inl (.inr ⟨_, rfl, hvalue, rfl⟩)
    | undefined hflat htemps hleft ht => exact .inr ⟨hflat, .inl ⟨_, _, _, htemps, hleft, ht, rfl⟩⟩
    | reassigned hflat htemps hfirst honly => exact .inr ⟨hflat, .inr ⟨htemps, _, _, _, rfl, hfirst, honly, rfl⟩⟩

end

end Instr

theorem Fits.not_breaks {done : List Instr} {i : Instr} {fault : Malformed} (h : Fits done i) : ¬ Breaks done i fault := by
  intro hb
  cases hb with
  | nested hsubs _ hsub =>
    have hsimple := Operand.forall_mem_tail_walk_iff.1 h.flat _ (by rw [hsubs]; exact List.mem_append_cons_self)
    simp [Operand.isComposite, hsimple] at hsub
  | compositeReturn hvalue =>
    have hsimple : Operand.isSimple _ = true := h.flat
    simp [Operand.isComposite, hsimple] at hvalue
  | undefined _ htemps _ ht =>
    obtain ⟨j, hj⟩ := h.assigned _ (Operand.mem_temps_iff.1 (by rw [htemps]; exact List.mem_append_cons_self))
    exact ht j hj
  | reassigned _ _ hfirst _ => exact h.fresh _ rfl _ hfirst

/-! ## A list of instructions -/

/-- Behind `done`, an instruction of `rest` breaks a rule and all the code before it is well formed. -/
def BreaksFirst (done rest : List Instr) (fault : Malformed) : Prop :=
  ∃ fitting i later, rest = fitting ++ i :: later ∧ WellFormed (done ++ fitting) ∧ Breaks (done ++ fitting) i fault

theorem BreaksFirst.wellFormed {done rest : List Instr} {fault : Malformed} (h : BreaksFirst done rest fault) :
    WellFormed done := by
  obtain ⟨fitting, i, later, -, hw, -⟩ := h
  exact hw.of_append

theorem not_breaksFirst_nil {done : List Instr} {fault : Malformed} : ¬ BreaksFirst done [] fault := by
  rintro ⟨fitting, i, later, h, -⟩
  simp at h

theorem breaksFirst_cons_iff {done rest : List Instr} {i : Instr} {fault : Malformed} (hd : WellFormed done) :
    BreaksFirst done (i :: rest) fault ↔ Breaks done i fault ∨ BreaksFirst (done ++ [i]) rest fault := by
  constructor
  · rintro ⟨fitting, j, later, heq, hw, hb⟩
    rcases List.cons_eq_append_iff.1 heq with ⟨rfl, hj⟩ | ⟨fitting, rfl, rfl⟩
    · obtain ⟨rfl, rfl⟩ := List.cons.inj hj
      rw [List.append_nil] at hb
      exact .inl hb
    · rw [List.append_cons] at hw hb
      exact .inr ⟨fitting, j, later, rfl, hw, hb⟩
  · rintro (hb | ⟨fitting, j, later, rfl, hw, hb⟩)
    · exact ⟨[], i, rest, rfl, by simpa using hd, by simpa using hb⟩
    · rw [← List.append_cons] at hw hb
      exact ⟨i :: fitting, j, later, rfl, hw, hb⟩

/-- Verification picked up behind the well-formed instructions `done` reports what is wrong with the first instruction
that does not fit the code before it. -/
theorem verifyFrom_eq_error_iff (rest : List Instr) (fault : Malformed) : ∀ (done : List Instr) (producers : Producers),
    WellFormed done → producers.Tracks done →
      (verifyFrom producers done.length rest = .error fault ↔ BreaksFirst done rest fault) := by
  induction rest with
  | nil =>
    intro done producers _ _
    simp [verifyFrom, not_breaksFirst_nil]
  | cons i rest ih =>
    intro done producers hd ht
    rw [verifyFrom, breaksFirst_cons_iff hd]
    cases hf : i.fault? producers done.length with
    | none =>
      have hfit := (Instr.fault?_eq_none_iff ht).1 hf
      simpa [hfit.not_breaks] using ih (done ++ [i]) _ (hd.concat hfit) (ht.record hfit)
    | some found =>
      have hbreaks := (Instr.fault?_eq_some_iff ht).1 hf
      constructor
      · intro h
        obtain rfl : found = fault := by simpa using h
        exact .inl hbreaks
      · rintro (hb | hlater)
        · rw [← Instr.fault?_eq_some_iff ht, hf] at hb
          rw [Option.some.inj hb]
        · -- for a later fault to be the first, `i` would have to fit
          exact absurd hbreaks hlater.wellFormed.fits.not_breaks

theorem CodeUnit.verify_eq_error_iff {u : CodeUnit} {fault : Malformed} :
    u.verify = .error fault ↔
      ∃ done i later, u.instrs.toList = done ++ i :: later ∧ WellFormed done ∧ Breaks done i fault :=
  verifyFrom_eq_error_iff u.instrs.toList fault [] [] wellFormed_nil Producers.tracks_nil

/-- A unit that is refused is well formed up to the position that the fault names, every unit that begins like it up to
and with that position is refused for the same fault, and the fault is what the instruction there does wrong. -/
theorem verify_reports_first_fault (u : CodeUnit) (fault : Malformed) (h : u.verify = .error fault) :
    (∀ v : CodeUnit, v.instrs.toList = u.instrs.toList.take fault.position → v.verify = .ok ()) ∧
    (∀ v : CodeUnit, u.instrs.toList.take (fault.position + 1) <+: v.instrs.toList → v.verify = .error fault) ∧
    ∃ i, u.instrs.toList[fault.position]? = some i ∧ Breaks (u.instrs.toList.take fault.position) i fault := by
  obtain ⟨done, i, later, hcode, hw, hb⟩ := CodeUnit.verify_eq_error_iff.1 h
  have hdone : u.instrs.toList.take fault.position = done := by simp [hcode, hb.position]
  have hupto : u.instrs.toList.take (fault.position + 1) = done ++ [i] := by
    rw [hcode, hb.position, List.append_cons]
    exact List.take_left' (by simp)
  refine ⟨fun v hv => ?_, fun v hv => ?_, i, by simp [hcode, hb.position], hdone ▸ hb⟩
  · refine (verifyFrom_eq_ok_iff v.instrs.toList [] [] wellFormed_nil Producers.tracks_nil).2 ?_
    rw [hv, hdone]
    exact hw
  · obtain ⟨rest, hrest⟩ := hv
    rw [hupto, List.append_assoc] at hrest
    exact CodeUnit.verify_eq_error_iff.2 ⟨done, i, rest, hrest.symm, hw, hb⟩

/-- The second instruction reads a temporary that nothing assigns and assigns one again; whatever follows, the first of
the two is reported. -/
theorem verify_reports_first_fault_unassigned :
    let first : Instr := .assign (.temp ⟨1⟩) (.var ⟨"x", 0⟩)
    let second : Instr := .assign (.temp ⟨1⟩) (.binary .add (.temp ⟨1⟩) (.temp ⟨2⟩))
    CodeUnit.verify { instrs := #[first, second] } = .error (.undefinedTemp ⟨2⟩ 1) ∧
    CodeUnit.verify { instrs := #[first] } = .ok () ∧
    ∀ rest : Array Instr, CodeUnit.verify { instrs := #[first, second] ++ rest } = .error (.undefinedTemp ⟨2⟩ 1) := by
  intro first second
  have hu : CodeUnit.verify { instrs := #[first, second] } = .error (.undefinedTemp ⟨2⟩ 1) := rfl
  obtain ⟨hbefore, hafter, -⟩ := verify_reports_first_fault { instrs := #[first, second] } _ hu
  refine ⟨hu, hbefore _ rfl, fun rest => hafter _ ?_⟩
  simp [Malformed.position]

end ThreeAddress.Code
