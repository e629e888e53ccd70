import ThreeAddress.Code.Verify
/-!
# Well-formed code is what verification accepts

`WellFormed` looks at a whole list of instructions: at whatever occurs in an operand and at all pairs of positions.
Verification goes through the list once, looks at the direct sub-operands only and keeps a table of producers. The two
are compared an instruction at a time. `Fits done i` is what `i` may ask of the instructions `done` before it: code
stays well formed when an instruction is added exactly if the instruction fits (`WellFormed.concat`,
`WellFormed.fits`), and with a table that tracks `done` the verifier finds no fault exactly if it fits
(`Instr.fault?_eq_none_iff`).
-/
namespace ThreeAddress.Code

namespace Operand

/-- Induction on operands, with what is called and the arguments of a call at once. -/
@[elab_as_elim]
theorem inductionOn {P : Operand → Prop} (o : Operand) (const : ∀ value, P (.const value)) (temp : ∀ t, P (.temp t))
    (var : ∀ v, P (.var v)) (func : ∀ name, P (.func name))
    (element : ∀ vector index, P vector → P index → P (.element vector index))
    (binary : ∀ op lhs rhs, P lhs → P rhs → P (.binary op lhs rhs))
    (unary : ∀ op operand, P operand → P (.unary op operand))
    (call : ∀ callee args, P callee → (∀ arg ∈ args, P arg) → P (.call callee args)) : P o := by
  refine @Operand.rec P (fun os => ∀ o ∈ os, P o) const temp var func element binary unary call ?_ ?_ o
  · intro o ho
    cases ho
  · intro o os ho hos o' hmem
    rcases List.mem_cons.1 hmem with rfl | hmem
    · exact ho
    · exact hos o' hmem

/-- Induction on operands where the kind of operation does not matter. -/
@[elab_as_elim]
theorem subInductionOn {P : Operand → Prop} (o : Operand) (step : ∀ o, (∀ sub ∈ o.subOperands, P sub) → P o) : P o := by
  induction o using inductionOn with
  | const | temp | var | func => exact step _ (by simp [subOperands])
  | element vector index hv hi => exact step _ (by simp [subOperands, hv, hi])
  | binary op lhs rhs hl hr => exact step _ (by simp [subOperands, hl, hr])
  | unary op operand h => exact step _ (by simp [subOperands, h])
  | call callee args hf ha => exact step _ (by simpa [subOperands, hf] using ha)

/-- An operand occurs in itself, and in an operation wherever it occurs in what the operation is applied to. -/
inductive Occurs (x : Operand) : Operand → Prop
  | self : Occurs x x
  | vector {vector index : Operand} (h : Occurs x vector) : Occurs x (.element vector index)
  | index {vector index : Operand} (h : Occurs x index) : Occurs x (.element vector index)
  | lhs {op : BinaryOp} {lhs rhs : Operand} (h : Occurs x lhs) : Occurs x (.binary op lhs rhs)
  | rhs {op : BinaryOp} {lhs rhs : Operand} (h : Occurs x rhs) : Occurs x (.binary op lhs rhs)
  | operand {op : UnaryOp} {operand : Operand} (h : Occurs x operand) : Occurs x (.unary op operand)
  | callee {callee : Operand} {args : List Operand} (h : Occurs x callee) : Occurs x (.call callee args)
  | arg {callee arg : Operand} {args : List Operand} (hmem : arg ∈ args) (h : Occurs x arg) :
      Occurs x (.call callee args)

theorem Occurs.of_mem_subOperands {x o sub : Operand} (hsub : sub ∈ o.subOperands) (h : x.Occurs sub) : x.Occurs o := by
  cases o with
  | const | temp | var | func => cases hsub
  | element vector index =>
    rcases List.mem_cons.1 hsub with rfl | hsub
    · exact h.vector
    · exact (List.mem_singleton.1 hsub ▸ h).index
  | binary op lhs rhs =>
    rcases List.mem_cons.1 hsub with rfl | hsub
    · exact h.lhs
    · exact (List.mem_singleton.1 hsub ▸ h).rhs
  | unary op operand => exact (List.mem_singleton.1 hsub ▸ h).operand
  | call callee args =>
    rcases List.mem_cons.1 hsub with rfl | hsub
    · exact h.callee
    · exact h.arg hsub

theorem occurs_iff {x o : Operand} : x.Occurs o ↔ x = o ∨ ∃ sub ∈ o.subOperands, x.Occurs sub := by
  constructor
  · intro h
    cases h with
    | self => exact .inl rfl
    | vector h | lhs h | operand h | callee h => exact .inr ⟨_, List.mem_cons_self, h⟩
    | index h | rhs h => exact .inr ⟨_, List.mem_cons_of_mem _ List.mem_cons_self, h⟩
    | arg hmem h => exact .inr ⟨_, List.mem_cons_of_mem _ hmem, h⟩
  · rintro (rfl | ⟨sub, hsub, h⟩)
    · exact .self
    · exact h.of_mem_subOperands hsub

/-- `walk` leaves out nothing that occurs and adds nothing. -/
theorem mem_walk_iff {x o : Operand} : x ∈ o.walk ↔ x.Occurs o := by
  induction o using subInductionOn with
  | step o ih =>
    rw [walk_eq_cons, List.mem_cons, List.mem_flatMap, occurs_iff]
    exact or_congr_right (exists_congr fun sub => and_congr_right fun hsub => ih sub hsub)

theorem self_mem_walk (o : Operand) : o ∈ o.walk := mem_walk_iff.2 .self

theorem mem_walk_of_mem_subOperands {o sub x : Operand} (hsub : sub ∈ o.subOperands) (hx : x ∈ sub.walk) :
    x ∈ o.walk :=
  mem_walk_iff.2 ((mem_walk_iff.1 hx).of_mem_subOperands hsub)

theorem walk_of_isSimple {o : Operand} (h : o.isSimple = true) : o.walk = [o] := by
  cases o <;> simp [isSimple] at h <;> simp [walk]

/-- Everything below the root is simple as soon as the direct sub-operands are. -/
theorem forall_mem_tail_walk_iff {o : Operand} :
    (∀ sub ∈ o.walk.tail, sub.isSimple = true) ↔ ∀ sub ∈ o.subOperands, sub.isSimple = true := by
  rw [walk_eq_cons, List.tail_cons]
  constructor
  · intro h sub hsub
    exact h sub (List.mem_flatMap.2 ⟨sub, hsub, self_mem_walk sub⟩)
  · intro h sub hsub
    -- a simple sub-operand is all of its own walk
    obtain ⟨top, htop, hmem⟩ := List.mem_flatMap.1 hsub
    rw [walk_of_isSimple (h top htop), List.mem_singleton] at hmem
    exact hmem ▸ h top htop

theorem temp?_eq_some_iff {o : Operand} {t : Temp} : o.temp? = some t ↔ o = .temp t := by
  cases o <;> simp [temp?]

theorem mem_temps_iff {o : Operand} {t : Temp} : t ∈ o.temps ↔ (Operand.temp t).Occurs o := by
  simp only [temps, List.mem_filterMap, temp?_eq_some_iff, exists_eq_right, mem_walk_iff]

@[simp] theorem temps_temp (t : Temp) : (Operand.temp t).temps = [t] := rfl

end Operand

/-- The instruction at position `j` assigns `t`. -/
def Produces (code : List Instr) (j : Nat) (t : Temp) : Prop :=
  ∃ source, code[j]? = some (.assign (.temp t) source)

/-- The rules of three-address code, for all instructions and all positions at once. -/
structure WellFormed (code : List Instr) : Prop where
  flat : ∀ target source, .assign target source ∈ code → ∀ sub ∈ source.walk.tail, sub.isSimple = true
  simpleReturn : ∀ value, .ret value ∈ code → value.isSimple = true
  assignedOnce : ∀ t i j, Produces code i t → Produces code j t → i = j
  assignedBefore : ∀ i instr t, code[i]? = some instr → (Operand.temp t).Occurs instr.source →
    ∃ j < i, Produces code j t

/-! ## Positions -/

namespace Instr

@[simp] theorem producedTemp?_assign_temp (t : Temp) (source : Operand) :
    (Instr.assign (.temp t) source).producedTemp? = some t := rfl

@[simp] theorem producedTemp?_assign_var (v : Variable) (source : Operand) :
    (Instr.assign (.var v) source).producedTemp? = none := rfl

@[simp] theorem producedTemp?_ret (value : Operand) : (Instr.ret value).producedTemp? = none := rfl

theorem producedTemp?_eq_some_iff {i : Instr} {t : Temp} :
    i.producedTemp? = some t ↔ ∃ source, i = .assign (.temp t) source := by
  cases i with
  | assign target source => cases target <;> simp
  | ret value => simp

end Instr

theorem Produces.lt {code : List Instr} {j : Nat} {t : Temp} (h : Produces code j t) : j < code.length := by
  obtain ⟨source, hs⟩ := h
  exact (List.getElem?_eq_some_iff.1 hs).1

theorem not_produces_nil {j : Nat} {t : Temp} : ¬ Produces [] j t := by
  intro h
  exact absurd h.lt (Nat.not_lt_zero j)

theorem produces_append_iff_of_lt {done rest : List Instr} {j : Nat} {t : Temp} (hj : j < done.length) :
    Produces (done ++ rest) j t ↔ Produces done j t := by
  simp only [Produces, List.getElem?_append_left hj]

theorem produces_concat_iff {done : List Instr} {i : Instr} {j : Nat} {t : Temp} :
    Produces (done ++ [i]) j t ↔ Produces done j t ∨ j = done.length ∧ i.producedTemp? = some t := by
  rcases Nat.lt_trichotomy j done.length with hj | hj | hj
  · simp [produces_append_iff_of_lt hj, Nat.ne_of_lt hj]
  · subst hj
    simp [Produces, Instr.producedTemp?_eq_some_iff]
  · have hout : (done ++ [i])[j]? = none := by simp; omega
    have hdone : done[j]? = none := by simp; omega
    simp [Produces, hout, hdone, Nat.ne_of_gt hj]

/-! ## One more instruction -/

/-- A composite operand stands only as the source of an assignment, and its sub-operands are simple. -/
def Instr.IsFlat : Instr → Prop
  | .assign _ source => ∀ sub ∈ source.walk.tail, sub.isSimple = true
  | .ret value => value.isSimple = true

/-- What an instruction may ask of the instructions before it. -/
structure Fits (done : List Instr) (i : Instr) : Prop where
  flat : i.IsFlat
  assigned : ∀ t, (Operand.temp t).Occurs i.source → ∃ j, Produces done j t
  fresh : ∀ t, i.producedTemp? = some t → ∀ j, ¬ Produces done j t

theorem wellFormed_nil : WellFormed [] where
  flat _ _ h := by cases h
  simpleReturn _ h := by cases h
  assignedOnce _ _ _ h := (not_produces_nil h).elim
  assignedBefore _ _ _ h := by simp at h

/-- What comes later takes nothing away from the instructions before it. -/
theorem WellFormed.of_append {done rest : List Instr} (h : WellFormed (done ++ rest)) : WellFormed done where
  flat target source hm := h.flat target source (List.mem_append_left _ hm)
  simpleReturn value hm := h.simpleReturn value (List.mem_append_left _ hm)
  assignedOnce t j k hj hk :=
    h.assignedOnce t j k ((produces_append_iff_of_lt hj.lt).2 hj) ((produces_append_iff_of_lt hk.lt).2 hk)
  assignedBefore j instr t hj ht := by
    have hlt := (List.getElem?_eq_some_iff.1 hj).1
    obtain ⟨k, hk, hp⟩ := h.assignedBefore j instr t (by rw [List.getElem?_append_left hlt]; exact hj) ht
    exact ⟨k, hk, (produces_append_iff_of_lt (Nat.lt_trans hk hlt)).1 hp⟩

theorem WellFormed.fits {done : List Instr} {i : Instr} (h : WellFormed (done ++ [i])) : Fits done i where
  flat := by
    cases i with
    | assign target source => exact h.flat target source (by simp)
    | ret value => exact h.simpleReturn value (by simp)
  assigned t ht := by
    obtain ⟨j, hj, hp⟩ := h.assignedBefore done.length i t (by simp) ht
    rcases produces_concat_iff.1 hp with hp | ⟨rfl, -⟩
    · exact ⟨j, hp⟩
    · omega
  fresh t ht j hj := by
    have hlast : Produces (done ++ [i]) done.length t := produces_concat_iff.2 (.inr ⟨rfl, ht⟩)
    have := h.assignedOnce t j done.length (produces_concat_iff.2 (.inl hj)) hlast
    exact absurd hj.lt (by omega)

theorem WellFormed.concat {done : List Instr} {i : Instr} (h : WellFormed done) (hf : Fits done i) :
    WellFormed (done ++ [i]) where
  flat target source hm := by
    rcases List.mem_append.1 hm with hm | hm
    · exact h.flat target source hm
    · cases List.mem_singleton.1 hm; exact hf.flat
  simpleReturn value hm := by
    rcases List.mem_append.1 hm with hm | hm
    · exact h.simpleReturn value hm
    · cases List.mem_singleton.1 hm; exact hf.flat
  assignedOnce t j k hj hk := by
    -- of two producers the later one can only be `i`, and its target is fresh
    rcases produces_concat_iff.1 hj with hj' | ⟨rfl, hj'⟩ <;> rcases produces_concat_iff.1 hk with hk' | ⟨rfl, hk'⟩
    · exact h.assignedOnce t j k hj' hk'
    · exact absurd hj' (hf.fresh t hk' j)
    · exact absurd hk' (hf.fresh t hj' k)
    · rfl
  assignedBefore j instr t hj ht := by
    rcases Nat.lt_or_ge j done.length with hlt | hge
    · rw [List.getElem?_append_left hlt] at hj
      obtain ⟨k, hk, hp⟩ := h.assignedBefore j instr t hj ht
      exact ⟨k, hk, produces_concat_iff.2 (.inl hp)⟩
    · have hje : j = done.length := by
        have := (List.getElem?_eq_some_iff.1 hj).1
        simp at this
        omega
      subst hje
      obtain rfl : i = instr := by simpa using hj
      obtain ⟨k, hp⟩ := hf.assigned t ht
      exact ⟨k, hp.lt, produces_concat_iff.2 (.inl hp)⟩

/-! ## What the verifier tests -/

/-- The table gives for every temporary assigned in `done` the one position that assigns it. -/
def Producers.Tracks (producers : Producers) (done : List Instr) : Prop :=
  ∀ t p, producers.lookup t = some p ↔ Produces done p t

theorem Producers.tracks_nil : Producers.Tracks [] [] := by
  intro t p
  simp [not_produces_nil]

namespace Producers.Tracks

variable {producers : Producers} {done : List Instr}

theorem isSome_lookup_iff (h : producers.Tracks done) {t : Temp} :
    (producers.lookup t).isSome = true ↔ ∃ j, Produces done j t := by
  rw [Option.isSome_iff_exists]
  exact exists_congr (h t)

theorem lookup_eq_none_iff (h : producers.Tracks done) {t : Temp} :
    producers.lookup t = none ↔ ∀ j, ¬ Produces done j t := by
  rw [← Option.not_isSome_iff_eq_none, h.isSome_lookup_iff, not_exists]

/-- Recording an instruction that fits keeps the table in step. -/
theorem record (h : producers.Tracks done) {i : Instr} (hf : Fits done i) :
    (i.record producers done.length).Tracks (done ++ [i]) := by
  intro t p
  rw [produces_concat_iff, ← h t p, Instr.record]
  cases hp : i.producedTemp? with
  | none => simp
  | some t' =>
    by_cases ht : t = t'
    · subst ht
      have hnone := h.lookup_eq_none_iff.2 (hf.fresh t hp)
      simp [hnone, eq_comm]
    · have hne : (t == t') = false := by simpa using ht
      simp [List.lookup_cons, hne, Ne.symm ht]

end Producers.Tracks

theorem Instr.misshape?_eq_none_iff {i : Instr} {position : Nat} : i.misshape? position = none ↔ i.IsFlat := by
  cases i with
  | assign target source =>
    simp [Instr.misshape?, Instr.IsFlat, Operand.forall_mem_tail_walk_iff, Operand.isComposite]
  | ret value => simp [Instr.misshape?, Instr.IsFlat, Operand.isComposite]

theorem Instr.undefinedUse?_eq_none_iff {i : Instr} {producers : Producers} {done : List Instr} {position : Nat}
    (h : producers.Tracks done) :
    i.undefinedUse? producers position = none ↔ ∀ t, (Operand.temp t).Occurs i.source → ∃ j, Produces done j t := by
  simp only [Instr.undefinedUse?, Option.map_eq_none_iff, List.find?_eq_none, Instr.usedTemps, Operand.mem_temps_iff,
    Bool.not_eq_true, Option.isNone_eq_false_iff, h.isSome_lookup_iff]

theorem Instr.redefinition?_eq_none_iff {i : Instr} {producers : Producers} {done : List Instr} {position : Nat}
    (h : producers.Tracks done) :
    i.redefinition? producers position = none ↔ ∀ t, i.producedTemp? = some t → ∀ j, ¬ Produces done j t := by
  simp only [Instr.redefinition?, Option.bind_eq_none_iff, Option.map_eq_none_iff, h.lookup_eq_none_iff]

theorem Instr.fault?_eq_none_iff {i : Instr} {producers : Producers} {done : List Instr} {position : Nat}
    (h : producers.Tracks done) : i.fault? producers position = none ↔ Fits done i := by
  rw [Instr.fault?, Option.or_eq_none_iff, Option.or_eq_none_iff, Instr.misshape?_eq_none_iff,
    Instr.undefinedUse?_eq_none_iff h, Instr.redefinition?_eq_none_iff h]
  exact ⟨fun ⟨h1, h2, h3⟩ => ⟨h1, h2, h3⟩, fun ⟨h1, h2, h3⟩ => ⟨h1, h2, h3⟩⟩

/-- Verification picked up behind the well-formed instructions `done` accepts exactly the rest that keeps the whole
well formed. -/
theorem verifyFrom_eq_ok_iff (rest : List Instr) : ∀ (done : List Instr) (producers : Producers),
    WellFormed done → producers.Tracks done →
      (verifyFrom producers done.length rest = .ok () ↔ WellFormed (done ++ rest)) := by
  induction rest with
  | nil =>
    intro done producers hd _
    simp [verifyFrom, hd]
  | cons i rest ih =>
    intro done producers hd ht
    rw [List.append_cons, verifyFrom]
    cases hf : i.fault? producers done.length with
    | none =>
      have hfit := (Instr.fault?_eq_none_iff ht).1 hf
      simpa using ih (done ++ [i]) _ (hd.concat hfit) (ht.record hfit)
    | some fault =>
      refine ⟨fun h => by simp at h, fun h => ?_⟩
      -- a prefix of well-formed code is well formed, so `i` would have to fit
      have hnone : i.fault? producers done.length = none := (Instr.fault?_eq_none_iff ht).2 h.of_append.fits
      rw [hf] at hnone
      cases hnone

/-- Verification decides well-formedness. -/
theorem CodeUnit.verify_eq_ok_iff_wellFormed (u : CodeUnit) : u.verify = .ok () ↔ WellFormed u.instrs.toList :=
  verifyFrom_eq_ok_iff u.instrs.toList [] [] wellFormed_nil Producers.tracks_nil

end ThreeAddress.Code
