import ThreeAddress.Proofs.Code.WellFormed
import ThreeAddress.Proofs.Meaning.Machine
/-!
# What verified code does while it runs

`Machine.trace` runs code as `Machine.run` does and writes down, instruction by instruction, which temporaries and
variables are read, which operations are applied to what, and what is written. A read is written down before the machine
looks, so that one that finds nothing is seen too.

What an instruction does is fixed by its text: it goes through `Instr.plan` in order, to the end or up to a read that
finds nothing (`Follows`). So the rules that verification enforces on all pairs of positions of the code hold of all
pairs of moments of a run.
-/
namespace ThreeAddress.Meaning

open Code

universe u

/-! ## Traced runs -/

/-- What a machine does at one moment. An operation is named by the operand that asks for it. -/
inductive Event where
  | readTemp (t : Temp)
  | readVar (v : Variable)
  | apply (operation : Operand)
  | write (target : Target)
deriving DecidableEq

namespace Event

def operation? : Event → Option Operand
  | .apply operation => some operation
  | _ => none

def writtenTemp? : Event → Option Temp
  | .write target => target.temp?
  | _ => none

end Event

/-- What was done on the way to a value. There is none if the machine got stuck. -/
structure Traced (α : Type u) where
  events : List Event
  value : Option α

namespace Traced

instance : Monad Traced where
  pure a := ⟨[], some a⟩
  bind x f :=
    match x.value with
    | some a => ⟨x.events ++ (f a).events, (f a).value⟩
    | none => ⟨x.events, none⟩

def record (e : Event) : Traced PUnit := ⟨[e], some ⟨⟩⟩

/-- The machine goes on only if there is a value. -/
def need {α : Type u} (x : Option α) : Traced α := ⟨[], x⟩

end Traced

variable {V W : Type u}

mutual

/-- Evaluates as `evalOperand` does. -/
def traceOperand (I : Interp V W) (m : Machine V W) : Operand → W → Traced (V × W)
  | .const value, w => return (I.const value, w)
  | .temp t, w => do
    Traced.record (.readTemp t)
    let value ← Traced.need (m.temps t)
    return (value, w)
  | .var v, w => do
    Traced.record (.readVar v)
    let value ← Traced.need (m.slots v.slot)
    return (value, w)
  | .func name, w => return (I.func name, w)
  | .element vector index, w => do
    let (a, w) ← traceOperand I m vector w
    let (b, w) ← traceOperand I m index w
    Traced.record (.apply (.element vector index))
    return I.element a b w
  | .binary op lhs rhs, w => do
    let (a, w) ← traceOperand I m lhs w
    let (b, w) ← traceOperand I m rhs w
    Traced.record (.apply (.binary op lhs rhs))
    return ofCodeBinaryOp I op a b w
  | .unary op operand, w => do
    let (a, w) ← traceOperand I m operand w
    Traced.record (.apply (.unary op operand))
    return ofCodeUnaryOp I op a w
  | .call (.func name) args, w => do
    let (values, w) ← traceOperands I m args w
    Traced.record (.apply (.call (.func name) args))
    return I.callNamed name values w
  | .call callee args, w => do
    let (f, w) ← traceOperand I m callee w
    let (values, w) ← traceOperands I m args w
    Traced.record (.apply (.call callee args))
    return I.callValue f values w

def traceOperands (I : Interp V W) (m : Machine V W) : List Operand → W → Traced (List V × W)
  | [], w => return ([], w)
  | o :: os, w => do
    let (value, w) ← traceOperand I m o w
    let (values, w) ← traceOperands I m os w
    return (value :: values, w)

end

/-- What was done by each instruction that was begun, and how the run ended. -/
structure Execution (V W : Type u) where
  steps : List (List Event)
  outcome : Option (Halt (Nat → Option V) V W)

namespace Machine

/-- The machine after an assignment, or how the run ends at a return. -/
def traceInstr (I : Interp V W) (m : Machine V W) : Instr → Traced (Machine V W ⊕ Halt (Nat → Option V) V W)
  | .assign target source => do
    let (value, w) ← traceOperand I m source m.world
    Traced.record (.write target)
    return .inl (m.write target value w)
  | .ret value => do
    let (v, w) ← traceOperand I m value m.world
    return .inr ⟨some v, m.slots, w⟩

def trace (I : Interp V W) : List Instr → Machine V W → Execution V W
  | [], m => ⟨[], some ⟨none, m.slots, m.world⟩⟩
  | i :: rest, m =>
    let step := m.traceInstr I i
    match step.value with
    | none => ⟨[step.events], none⟩
    | some (.inr halt) => ⟨[step.events], some halt⟩
    | some (.inl next) =>
      let later := trace I rest next
      ⟨step.events :: later.steps, later.outcome⟩

end Machine

/-! ## The trace changes nothing -/

section
variable {α β : Type u}

@[simp] theorem Traced.value_pure (a : α) : (pure a : Traced α).value = some a := rfl

@[simp] theorem Traced.value_record (e : Event) : (Traced.record.{u} e).value = some ⟨⟩ := rfl

@[simp] theorem Traced.value_need (x : Option α) : (Traced.need x).value = x := rfl

theorem Traced.bind_of_some {x : Traced α} {a : α} (h : x.value = some a) (f : α → Traced β) :
    x >>= f = ⟨x.events ++ (f a).events, (f a).value⟩ := by
  obtain ⟨events, value⟩ := x
  subst h
  rfl

theorem Traced.bind_of_none {x : Traced α} (h : x.value = none) (f : α → Traced β) : x >>= f = ⟨x.events, none⟩ := by
  obtain ⟨events, value⟩ := x
  subst h
  rfl

@[simp] theorem Traced.value_bind (x : Traced α) (f : α → Traced β) :
    (x >>= f).value = x.value.bind fun a => (f a).value := by
  cases h : x.value with
  | none => rw [bind_of_none h, Option.bind_none]
  | some a => rw [bind_of_some h, Option.bind_some]

end

/-- A callee that is not a function's name is evaluated like any other operand. -/
theorem traceOperand_call (I : Interp V W) (m : Machine V W) {callee : Operand} (h : ∀ name, callee ≠ .func name)
    (args : List Operand) (w : W) :
    traceOperand I m (.call callee args) w = do
      let (f, w) ← traceOperand I m callee w
      let (values, w) ← traceOperands I m args w
      Traced.record (.apply (.call callee args))
      return I.callValue f values w := by
  cases callee with
  | func name => exact absurd rfl (h name)
  | _ => rfl

theorem evalOperand_call (I : Interp V W) (m : Machine V W) {callee : Operand} (h : ∀ name, callee ≠ .func name)
    (args : List Operand) (w : W) :
    evalOperand I m (.call callee args) w = do
      let (f, w) ← evalOperand I m callee w
      let (values, w) ← evalOperands I m args w
      return I.callValue f values w := by
  cases callee with
  | func name => exact absurd rfl (h name)
  | _ => rfl

theorem value_traceOperands {I : Interp V W} {m : Machine V W} {os : List Operand}
    (h : ∀ o ∈ os, ∀ w, (traceOperand I m o w).value = evalOperand I m o w) (w : W) :
    (traceOperands I m os w).value = evalOperands I m os w := by
  induction os generalizing w with
  | nil => rfl
  | cons o os ih =>
    have hos := ih fun o' ho' => h o' (List.mem_cons_of_mem _ ho')
    simp [traceOperands, evalOperands, h o List.mem_cons_self, hos, Option.bind_eq_bind]

theorem value_traceOperand (I : Interp V W) (m : Machine V W) (o : Operand) (w : W) :
    (traceOperand I m o w).value = evalOperand I m o w := by
  induction o using Operand.inductionOn generalizing w with
  | const value => rfl
  | temp t => cases h : m.temps t <;> simp [traceOperand, evalOperand, h]
  | var v => cases h : m.slots v.slot <;> simp [traceOperand, evalOperand, h]
  | func name => rfl
  | element vector index ihv ihi => simp [traceOperand, evalOperand, ihv, ihi]
  | binary op lhs rhs ihl ihr => simp [traceOperand, evalOperand, ihl, ihr]
  | unary op operand ih => simp [traceOperand, evalOperand, ih]
  | call callee args ihf iha =>
    have hargs := value_traceOperands iha
    by_cases hf : ∃ name, callee = .func name
    · obtain ⟨name, rfl⟩ := hf
      simp [traceOperand, evalOperand, hargs]
    · rw [traceOperand_call I m (not_exists.1 hf), evalOperand_call I m (not_exists.1 hf)]
      simp [ihf, hargs]

theorem Machine.outcome_trace (I : Interp V W) (code : List Instr) (m : Machine V W) :
    (trace I code m).outcome = run I code m := by
  induction code generalizing m with
  | nil => rfl
  | cons i rest ih =>
    cases i with
    | assign target source =>
      have hv : (m.traceInstr I (.assign target source)).value =
          (evalOperand I m source m.world).map fun x => .inl (m.write target x.1 x.2) := by
        cases h : evalOperand I m source m.world <;> simp [traceInstr, value_traceOperand, h]
      rw [trace, run]
      cases h : evalOperand I m source m.world with
      | none => simp [hv, h]
      | some x => simp [hv, h, ih]
    | ret value =>
      have hv : (m.traceInstr I (.ret value)).value =
          (evalOperand I m value m.world).map fun x => .inr ⟨some x.1, m.slots, x.2⟩ := by
        cases h : evalOperand I m value m.world <;> simp [traceInstr, value_traceOperand, h]
      rw [trace, run]
      cases h : evalOperand I m value m.world with
      | none => simp [hv, h]
      | some x => simp [hv, h]

/-! ## Plans -/

mutual

/-- All that evaluating an operand does if nothing is missing: its sub-operands from left to right, then its own
operation. -/
def operandPlan : Operand → List Event
  | .const _ => []
  | .temp t => [.readTemp t]
  | .var v => [.readVar v]
  | .func _ => []
  | .element v i => operandPlan v ++ (operandPlan i ++ [.apply (.element v i)])
  | .binary op l r => operandPlan l ++ (operandPlan r ++ [.apply (.binary op l r)])
  | .unary op x => operandPlan x ++ [.apply (.unary op x)]
  | .call f as => operandPlan f ++ (argsPlan as ++ [.apply (.call f as)])

def argsPlan : List Operand → List Event
  | [] => []
  | a :: as => operandPlan a ++ argsPlan as

end

def instrPlan : Instr → List Event
  | .assign target source => operandPlan source ++ [.write target]
  | .ret value => operandPlan value

/-- The events are those of the plan, to the end or up to the moment the machine got stuck. -/
structure Follows {α : Type u} (x : Traced α) (plan : List Event) : Prop where
  partly : x.events <+: plan
  wholly : x.value.isSome = true → x.events = plan

section
variable {α β : Type u}

theorem follows_pure (a : α) : Follows (pure a : Traced α) [] := ⟨List.prefix_rfl, fun _ => rfl⟩

theorem follows_record (e : Event) : Follows (Traced.record.{u} e) [e] := ⟨List.prefix_rfl, fun _ => rfl⟩

theorem follows_need (x : Option α) : Follows (Traced.need x) [] := ⟨List.prefix_rfl, fun _ => rfl⟩

theorem Follows.bind {x : Traced α} {f : α → Traced β} {first second : List Event} (hx : Follows x first)
    (hf : ∀ a, Follows (f a) second) : Follows (x >>= f) (first ++ second) := by
  cases hv : x.value with
  | none =>
    rw [Traced.bind_of_none hv]
    exact ⟨hx.partly.trans (List.prefix_append _ _), by simp⟩
  | some a =>
    rw [Traced.bind_of_some hv, hx.wholly (by simp [hv])]
    refine ⟨(List.prefix_append_right_inj first).2 (hf a).partly, fun h => ?_⟩
    rw [(hf a).wholly h]

end

theorem traceOperands_follows {I : Interp V W} {m : Machine V W} {os : List Operand}
    (h : ∀ o ∈ os, ∀ w, Follows (traceOperand I m o w) (operandPlan o)) (w : W) :
    Follows (traceOperands I m os w) (argsPlan os) := by
  induction os generalizing w with
  | nil => exact follows_pure _
  | cons o os ih =>
    rw [traceOperands, argsPlan, ← List.append_nil (argsPlan os)]
    refine (h o List.mem_cons_self w).bind fun ⟨value, w⟩ => ?_
    exact (ih (fun o' ho' => h o' (List.mem_cons_of_mem _ ho')) w).bind fun _ => follows_pure _

/-- Applying an operation whose values are there is the last thing done. -/
theorem follows_apply (operation : Operand) (a : α) :
    Follows (do Traced.record (.apply operation); return a : Traced α) [.apply operation] :=
  (follows_record (.apply operation)).bind fun _ => follows_pure a

theorem traceOperand_follows (I : Interp V W) (m : Machine V W) (o : Operand) (w : W) :
    Follows (traceOperand I m o w) (operandPlan o) := by
  induction o using Operand.inductionOn generalizing w with
  | const value => exact follows_pure _
  | temp t => exact (follows_record _).bind fun _ => (follows_need _).bind fun _ => follows_pure _
  | var v => exact (follows_record _).bind fun _ => (follows_need _).bind fun _ => follows_pure _
  | func name => exact follows_pure _
  | element vector index ihv ihi =>
    rw [traceOperand, operandPlan]
    exact (ihv w).bind fun ⟨_, w⟩ => (ihi w).bind fun _ => follows_apply _ _
  | binary op lhs rhs ihl ihr =>
    rw [traceOperand, operandPlan]
    exact (ihl w).bind fun ⟨_, w⟩ => (ihr w).bind fun _ => follows_apply _ _
  | unary op operand ih =>
    rw [traceOperand, operandPlan]
    exact (ih w).bind fun _ => follows_apply _ _
  | call callee args ihf iha =>
    have hargs := traceOperands_follows iha
    rw [operandPlan]
    by_cases hf : ∃ name, callee = .func name
    · obtain ⟨name, rfl⟩ := hf
      exact (hargs w).bind fun _ => follows_apply _ _
    · rw [traceOperand_call I m (not_exists.1 hf)]
      exact (ihf w).bind fun ⟨_, w⟩ => (hargs w).bind fun _ => follows_apply _ _

theorem traceInstr_follows (I : Interp V W) (m : Machine V W) (i : Instr) :
    Follows (m.traceInstr I i) (instrPlan i) := by
  cases i with
  | assign target source =>
    refine (traceOperand_follows I m source m.world).bind fun _ => ?_
    exact (follows_record _).bind fun _ => follows_pure _
  | ret value =>
    rw [Machine.traceInstr, instrPlan, ← List.append_nil (operandPlan value)]
    exact (traceOperand_follows I m value m.world).bind fun _ => follows_pure _

/-! ## What is in a plan -/

theorem argsPlan_eq_flatMap (as : List Operand) : argsPlan as = as.flatMap operandPlan := by
  induction as with
  | nil => rfl
  | cons a as ih => simp [argsPlan, ih]

theorem operandPlan_of_isComposite {o : Operand} (h : o.isComposite = true) :
    operandPlan o = o.subOperands.flatMap operandPlan ++ [.apply o] := by
  cases o <;> simp [Operand.isComposite, Operand.isSimple] at h <;>
    simp [operandPlan, Operand.subOperands, argsPlan_eq_flatMap]

theorem operations_of_isSimple {o : Operand} (h : o.isSimple = true) :
    (operandPlan o).filterMap Event.operation? = [] := by
  cases o <;> simp [Operand.isSimple] at h <;> simp [operandPlan, Event.operation?]

/-- An operation on simple operands is the only one. -/
theorem operations_of_isComposite {o : Operand} (h : o.isComposite = true)
    (hs : ∀ sub ∈ o.subOperands, sub.isSimple = true) : (operandPlan o).filterMap Event.operation? = [o] := by
  have hsubs : (o.subOperands.flatMap operandPlan).filterMap Event.operation? = [] := by
    rw [List.filterMap_flatMap, List.flatMap_eq_nil_iff]
    exact fun sub hsub => operations_of_isSimple (hs sub hsub)
  rw [operandPlan_of_isComposite h, List.filterMap_append, hsubs]
  rfl

theorem readTemp_mem_operandPlan {o : Operand} {t : Temp} (h : .readTemp t ∈ operandPlan o) :
    (Operand.temp t).Occurs o := by
  induction o using Operand.subInductionOn with
  | step o ih =>
    cases hc : o.isComposite with
    | true =>
      rw [operandPlan_of_isComposite hc] at h
      simp only [List.mem_append, List.mem_flatMap, List.mem_singleton, reduceCtorEq, or_false] at h
      obtain ⟨sub, hsub, hread⟩ := h
      exact (ih sub hsub hread).of_mem_subOperands hsub
    | false =>
      cases o with
      | temp r =>
        obtain rfl : t = r := by simpa [operandPlan] using h
        exact .self
      | _ => simp_all [operandPlan, Operand.isComposite, Operand.isSimple]

theorem writtenTemps_operandPlan (o : Operand) : (operandPlan o).filterMap Event.writtenTemp? = [] := by
  induction o using Operand.subInductionOn with
  | step o ih =>
    cases hc : o.isComposite with
    | true =>
      have hsubs : (o.subOperands.flatMap operandPlan).filterMap Event.writtenTemp? = [] := by
        rw [List.filterMap_flatMap, List.flatMap_eq_nil_iff]
        exact ih
      rw [operandPlan_of_isComposite hc, List.filterMap_append, hsubs]
      rfl
    | false => cases o <;> simp_all [operandPlan, Operand.isComposite, Operand.isSimple, Event.writtenTemp?]

theorem writtenTemps_instrPlan (i : Instr) : (instrPlan i).filterMap Event.writtenTemp? = i.producedTemp?.toList := by
  cases i with
  | assign target source =>
    rw [instrPlan, List.filterMap_append, writtenTemps_operandPlan]
    cases target <;> rfl
  | ret value => exact writtenTemps_operandPlan value

theorem readTemp_mem_instrPlan {i : Instr} {t : Temp} (h : .readTemp t ∈ instrPlan i) :
    (Operand.temp t).Occurs i.source := by
  cases i with
  | assign target source =>
    simp only [instrPlan, List.mem_append, List.mem_singleton, reduceCtorEq, or_false] at h
    exact readTemp_mem_operandPlan h
  | ret value => exact readTemp_mem_operandPlan h

/-- A flat instruction applies nothing, or its source to simple operands. -/
theorem operations_instrPlan {i : Instr} (h : i.IsFlat) :
    (instrPlan i).filterMap Event.operation? = [] ∨
      (instrPlan i).filterMap Event.operation? = [i.source] ∧ ∀ sub ∈ i.source.subOperands, sub.isSimple = true := by
  cases i with
  | assign target source =>
    have hs : ∀ sub ∈ source.subOperands, sub.isSimple = true := Operand.forall_mem_tail_walk_iff.1 h
    have hplan : (instrPlan (.assign target source)).filterMap Event.operation? =
        (operandPlan source).filterMap Event.operation? := by
      simp [instrPlan, Event.operation?]
    rw [hplan]
    cases hc : source.isComposite with
    | true => exact .inr ⟨operations_of_isComposite hc hs, hs⟩
    | false => exact .inl (operations_of_isSimple (by simpa [Operand.isComposite] using hc))
  | ret value => exact .inl (operations_of_isSimple h)

/-! ## Runs -/

namespace Machine

/-- A run goes on behind an instruction only if the instruction was done to the end. -/
theorem trace_cons (I : Interp V W) (i : Instr) (rest : List Instr) (m : Machine V W) :
    (∃ next, trace I (i :: rest) m = ⟨instrPlan i :: (trace I rest next).steps, (trace I rest next).outcome⟩) ∨
      ∃ events outcome, trace I (i :: rest) m = ⟨[events], outcome⟩ ∧ events <+: instrPlan i := by
  have hf := traceInstr_follows I m i
  rw [trace]
  cases hv : (m.traceInstr I i).value with
  | none => exact .inr ⟨_, _, rfl, hf.partly⟩
  | some next =>
    cases next with
    | inl next =>
      rw [hf.wholly (by simp [hv])]
      exact .inl ⟨next, rfl⟩
    | inr halt => exact .inr ⟨_, _, rfl, hf.partly⟩

/-- Each step of a run follows the plan of its instruction, and all but the last go through it. -/
theorem steps_follow {I : Interp V W} {code : List Instr} {m : Machine V W} {k : Nat} {events : List Event}
    (h : (trace I code m).steps[k]? = some events) :
    ∃ i, code[k]? = some i ∧ events <+: instrPlan i ∧ (k + 1 < (trace I code m).steps.length → events = instrPlan i) := by
  induction code generalizing m k with
  | nil => simp [trace] at h
  | cons i rest ih =>
    rcases trace_cons I i rest m with ⟨next, heq⟩ | ⟨events', outcome, heq, hpre⟩
    · rw [heq] at h ⊢
      cases k with
      | zero =>
        obtain rfl : instrPlan i = events := by simpa using h
        exact ⟨i, rfl, List.prefix_rfl, fun _ => rfl⟩
      | succ k =>
        obtain ⟨i', hi', hpre, hall⟩ := ih (m := next) (by simpa using h)
        refine ⟨i', by simpa using hi', hpre, fun hk => hall ?_⟩
        simpa using hk
    · rw [heq] at h ⊢
      obtain ⟨rfl, rfl⟩ : k = 0 ∧ events' = events := by
        cases k <;> simp at h
        exact ⟨rfl, h⟩
      exact ⟨i, rfl, hpre, by simp⟩

theorem writtenTemps_sublist (I : Interp V W) (code : List Instr) (m : Machine V W) :
    ((trace I code m).steps.flatten.filterMap Event.writtenTemp?).Sublist (code.filterMap Instr.producedTemp?) := by
  induction code generalizing m with
  | nil => exact List.Sublist.refl _
  | cons i rest ih =>
    have hcons : (i :: rest).filterMap Instr.producedTemp? =
        i.producedTemp?.toList ++ rest.filterMap Instr.producedTemp? := by
      cases h : i.producedTemp? <;> simp [h]
    rw [hcons, ← writtenTemps_instrPlan]
    rcases trace_cons I i rest m with ⟨next, heq⟩ | ⟨events, outcome, heq, hpre⟩
    · rw [heq, List.flatten_cons, List.filterMap_append]
      exact (List.Sublist.refl _).append (ih next)
    · rw [heq, List.flatten_singleton]
      exact (hpre.filterMap _).sublist.trans (List.sublist_append_left _ _)

end Machine

theorem nodup_producedTemps {code : List Instr} (h : WellFormed code) :
    (code.filterMap Instr.producedTemp?).Nodup := by
  rw [List.Nodup, List.pairwise_filterMap, List.pairwise_iff_getElem]
  intro i j hi hj hij t ht t' ht' heq
  subst heq
  -- two positions that assign the same temporary are one position
  have produces {k : Nat} (hk : k < code.length) (hp : code[k].producedTemp? = some t) : Produces code k t := by
    obtain ⟨source, hs⟩ := Instr.producedTemp?_eq_some_iff.1 hp
    exact ⟨source, by rw [List.getElem?_eq_getElem hk, hs]⟩
  have := h.assignedOnce t i j (produces hi ht) (produces hj ht')
  omega

/-! ## Verified code does not get stuck -/

theorem evalOperands_isSome {I : Interp V W} {m : Machine V W} {os : List Operand}
    (h : ∀ o ∈ os, ∀ w, (evalOperand I m o w).isSome = true) (w : W) : (evalOperands I m os w).isSome = true := by
  induction os generalizing w with
  | nil => rfl
  | cons o os ih =>
    obtain ⟨⟨value, w₁⟩, ho⟩ := Option.isSome_iff_exists.1 (h o List.mem_cons_self w)
    obtain ⟨⟨values, w₂⟩, hos⟩ :=
      Option.isSome_iff_exists.1 (ih (fun o' ho' => h o' (List.mem_cons_of_mem _ ho')) w₁)
    simp [evalOperands, ho, hos]

/-- An operand has a value as soon as its temporaries and all variables have one. -/
theorem evalOperand_isSome {I : Interp V W} {m : Machine V W} (hslots : ∀ slot, (m.slots slot).isSome = true)
    {o : Operand} (htemps : ∀ t, (Operand.temp t).Occurs o → (m.temps t).isSome = true) (w : W) :
    (evalOperand I m o w).isSome = true := by
  induction o using Operand.inductionOn generalizing w with
  | const value => rfl
  | temp t => simpa [evalOperand] using htemps t .self
  | var v => simpa [evalOperand] using hslots v.slot
  | func name => rfl
  | element vector index ihv ihi =>
    obtain ⟨⟨a, w₁⟩, ha⟩ := Option.isSome_iff_exists.1 (ihv (fun t ht => htemps t ht.vector) w)
    obtain ⟨⟨b, w₂⟩, hb⟩ := Option.isSome_iff_exists.1 (ihi (fun t ht => htemps t ht.index) w₁)
    simp [evalOperand, ha, hb]
  | binary op lhs rhs ihl ihr =>
    obtain ⟨⟨a, w₁⟩, ha⟩ := Option.isSome_iff_exists.1 (ihl (fun t ht => htemps t ht.lhs) w)
    obtain ⟨⟨b, w₂⟩, hb⟩ := Option.isSome_iff_exists.1 (ihr (fun t ht => htemps t ht.rhs) w₁)
    simp [evalOperand, ha, hb]
  | unary op operand ih =>
    obtain ⟨⟨a, w₁⟩, ha⟩ := Option.isSome_iff_exists.1 (ih (fun t ht => htemps t ht.operand) w)
    simp [evalOperand, ha]
  | call callee args ihf iha =>
    have hargs : ∀ arg ∈ args, ∀ w, (evalOperand I m arg w).isSome = true := by
      intro arg harg w
      exact iha arg harg (fun t ht => htemps t (ht.arg harg)) w
    by_cases hf : ∃ name, callee = .func name
    · obtain ⟨name, rfl⟩ := hf
      obtain ⟨⟨values, w₁⟩, hvs⟩ := Option.isSome_iff_exists.1 (evalOperands_isSome hargs w)
      simp [evalOperand, hvs]
    · rw [evalOperand_call I m (not_exists.1 hf)]
      obtain ⟨⟨f, w₁⟩, hv⟩ := Option.isSome_iff_exists.1 (ihf (fun t ht => htemps t ht.callee) w)
      obtain ⟨⟨values, w₂⟩, hvs⟩ := Option.isSome_iff_exists.1 (evalOperands_isSome hargs w₁)
      simp [hv, hvs]

namespace Machine

theorem isSome_slots_write {m : Machine V W} (h : ∀ slot, (m.slots slot).isSome = true) (target : Target) (value : V)
    (w : W) (slot : Nat) : ((m.write target value w).slots slot).isSome = true := by
  cases target with
  | temp t => exact h slot
  | var v =>
    simp only [write]
    split
    · rfl
    · exact h slot

theorem isSome_temps_write {m : Machine V W} {t : Temp} (h : (m.temps t).isSome = true) (target : Target) (value : V)
    (w : W) : ((m.write target value w).temps t).isSome = true := by
  cases target with
  | temp t' =>
    simp only [write]
    split
    · rfl
    · exact h
  | var v => exact h

/-- The temporaries assigned by `done` hold a value; then the rest of well-formed code runs to its end. -/
theorem run_isSome {I : Interp V W} (rest : List Instr) : ∀ (done : List Instr) (m : Machine V W),
    WellFormed (done ++ rest) → (∀ slot, (m.slots slot).isSome = true) →
      (∀ t j, Produces done j t → (m.temps t).isSome = true) → (run I rest m).isSome = true := by
  induction rest with
  | nil => intro done m _ _ _; rfl
  | cons i rest ih =>
    intro done m hwf hslots htemps
    rw [List.append_cons] at hwf
    have hfits : Fits done i := hwf.of_append.fits
    have hsource : ∀ t, (Operand.temp t).Occurs i.source → (m.temps t).isSome = true := by
      intro t ht
      obtain ⟨j, hj⟩ := hfits.assigned t ht
      exact htemps t j hj
    obtain ⟨⟨value, w⟩, heval⟩ := Option.isSome_iff_exists.1 (evalOperand_isSome (I := I) hslots hsource m.world)
    cases i with
    | ret _ =>
      rw [Instr.source] at heval
      simp [run, heval]
    | assign target source =>
      rw [Instr.source] at heval
      have hrest := ih (done ++ [.assign target source]) (m.write target value w) hwf
        (isSome_slots_write hslots target value w) ?_
      · simpa [run, heval] using hrest
      · intro t j hp
        rcases produces_concat_iff.1 hp with hp | ⟨-, hp⟩
        · exact isSome_temps_write (htemps t j hp) target value w
        · obtain ⟨_, hi⟩ := Instr.producedTemp?_eq_some_iff.1 hp
          cases hi
          simp [write]

end Machine

/-! ## Safety -/

section
variable {I : Interp V W} {code : List Instr} {m : Machine V W} {k : Nat} {events : List Event}

/-- A temporary that is read was written by an earlier instruction. -/
theorem exists_write_of_read (h : WellFormed code) (hk : (Machine.trace I code m).steps[k]? = some events) {t : Temp}
    (hread : .readTemp t ∈ events) :
    ∃ j < k, ∃ earlier, (Machine.trace I code m).steps[j]? = some earlier ∧ .write (.temp t) ∈ earlier := by
  obtain ⟨i, hi, hpre, -⟩ := Machine.steps_follow hk
  obtain ⟨j, hj, source, hp⟩ := h.assignedBefore k i t hi (readTemp_mem_instrPlan (hpre.subset hread))
  -- instruction `k` was begun, so instruction `j` was done to the end
  have hlt : k < (Machine.trace I code m).steps.length := (List.getElem?_eq_some_iff.1 hk).1
  obtain ⟨earlier, hearlier⟩ : ∃ earlier, (Machine.trace I code m).steps[j]? = some earlier :=
    ⟨_, List.getElem?_eq_getElem (by omega)⟩
  obtain ⟨i', hi', -, hall⟩ := Machine.steps_follow hearlier
  obtain rfl : .assign (.temp t) source = i' := Option.some.inj (hp.symm.trans hi')
  refine ⟨j, hj, earlier, hearlier, ?_⟩
  rw [hall (by omega), instrPlan]
  simp

/-- An instruction applies at most one operation, to simple operands. -/
theorem operations_of_step (h : WellFormed code) (hk : (Machine.trace I code m).steps[k]? = some events) :
    (events.filterMap Event.operation?).length ≤ 1 ∧
      ∀ operation ∈ events.filterMap Event.operation?, ∀ sub ∈ operation.subOperands, sub.isSimple = true := by
  obtain ⟨i, hi, hpre, -⟩ := Machine.steps_follow hk
  have hops : events.filterMap Event.operation? <+: (instrPlan i).filterMap Event.operation? := hpre.filterMap _
  have hflat : i.IsFlat := by
    have hm := List.mem_of_getElem? hi
    cases i with
    | assign target source => exact h.flat target source hm
    | ret value => exact h.simpleReturn value hm
  rcases operations_instrPlan hflat with hnone | ⟨hone, hsubs⟩
  · rw [hnone, List.prefix_nil] at hops
    simp [hops]
  · rw [hone] at hops
    refine ⟨hops.length_le, fun operation ho => ?_⟩
    rw [List.mem_singleton.1 (hops.subset ho)]
    exact hsubs

end

/-- However operations are interpreted and whatever the variables hold, a run of verified code reads a temporary only
after an earlier instruction has written it, writes none twice and applies at most one operation for each instruction,
to simple operands only. With a value for every variable it runs to its end. -/
theorem verified_run_safe (I : Interp V W) (u : CodeUnit) (h : u.verify = .ok ()) (slots : Nat → Option V) (w : W) :
    let start : Machine V W := ⟨fun _ => none, slots, w⟩
    let run := Machine.trace I u.instrs.toList start
    (∀ (k : Nat) (events : List Event) (t : Temp), run.steps[k]? = some events → .readTemp t ∈ events →
      ∃ j < k, ∃ earlier, run.steps[j]? = some earlier ∧ .write (.temp t) ∈ earlier) ∧
    (run.steps.flatten.filterMap Event.writtenTemp?).Nodup ∧
    (∀ events ∈ run.steps, (events.filterMap Event.operation?).length ≤ 1 ∧
      ∀ operation ∈ events.filterMap Event.operation?, ∀ sub ∈ operation.subOperands, sub.isSimple = true) ∧
    run.outcome = Machine.run I u.instrs.toList start ∧
    ((∀ slot, (slots slot).isSome = true) → run.outcome.isSome = true) := by
  intro start run
  have hwf : WellFormed u.instrs.toList := (verifyFrom_eq_ok_iff _ [] [] wellFormed_nil Producers.tracks_nil).1 h
  refine ⟨fun k events t hk => exists_write_of_read hwf hk, ?_, ?_, Machine.outcome_trace I _ start, fun hslots => ?_⟩
  · exact (nodup_producedTemps hwf).sublist (Machine.writtenTemps_sublist I _ start)
  · intro events hevents
    obtain ⟨k, hk⟩ := List.getElem?_of_mem hevents
    exact operations_of_step hwf hk
  · rw [Machine.outcome_trace]
    exact Machine.run_isSome u.instrs.toList [] start hwf hslots fun t j hp => (not_produces_nil hp).elim

/-- A value is called with itself as an argument, and code stands behind the return. -/
def callThenReturn : CodeUnit where
  instrs := #[.assign (.temp ⟨1⟩) (.call (.func "f") [.var ⟨"x", 0⟩]),
    .assign (.temp ⟨2⟩) (.call (.temp ⟨1⟩) [.temp ⟨1⟩, .const .null]),
    .ret (.temp ⟨2⟩),
    .assign (.temp ⟨3⟩) (.unary .neg (.temp ⟨2⟩))]

theorem verified_run_safe_callThenReturn :
    callThenReturn.verify = .ok () ∧
    let run := Machine.trace counting callThenReturn.instrs.toList ⟨fun _ => none, fun _ => some 0, 0⟩
    run.steps =
      [[.readVar ⟨"x", 0⟩, .apply (.call (.func "f") [.var ⟨"x", 0⟩]), .write (.temp ⟨1⟩)],
        [.readTemp ⟨1⟩, .readTemp ⟨1⟩, .apply (.call (.temp ⟨1⟩) [.temp ⟨1⟩, .const .null]), .write (.temp ⟨2⟩)],
        [.readTemp ⟨2⟩]] ∧
    (∃ j < 2, ∃ earlier, run.steps[j]? = some earlier ∧ .write (.temp ⟨2⟩) ∈ earlier) ∧
    (run.steps.flatten.filterMap Event.writtenTemp?).Nodup ∧
    run.outcome.isSome = true := by
  have hverify : callThenReturn.verify = .ok () := rfl
  obtain ⟨hreads, hwrites, -, -, hends⟩ := verified_run_safe counting callThenReturn hverify (fun _ => some 0) 0
  exact ⟨hverify, rfl, hreads 2 [.readTemp ⟨2⟩] ⟨2⟩ rfl (by simp), hwrites, hends fun _ => rfl⟩

end ThreeAddress.Meaning
