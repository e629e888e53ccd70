import Mathlib.Logic.Relation
import ThreeAddress.Proofs.Code.Temps
/-!
# Unfolding temporaries

A temporary in an operand is unfolded when the source of an instruction that assigns it is put in its place. Here this
is done one occurrence at a time and in any order (`Unfolds`). `Solves f code` says that `f` knows for every temporary
of the code what it stands for in the end. With such an `f` at hand nothing depends on the order: unfolding never
changes what an operand stands for, and every step brings out one more of the operations in it, so that it comes to an
end (`unfoldsOnlyTo_of_solves`).
-/
namespace ThreeAddress.Code

/-- One occurrence of a temporary is replaced by the source of an instruction that assigns it. -/
inductive Unfolds (code : List Instr) : Operand → Operand → Prop
  | temp {t : Temp} {source : Operand} (h : .assign (.temp t) source ∈ code) : Unfolds code (.temp t) source
  | vector {vector vector' : Operand} (index : Operand) (h : Unfolds code vector vector') :
      Unfolds code (.element vector index) (.element vector' index)
  | index (vector : Operand) {index index' : Operand} (h : Unfolds code index index') :
      Unfolds code (.element vector index) (.element vector index')
  | lhs (op : BinaryOp) {lhs lhs' : Operand} (rhs : Operand) (h : Unfolds code lhs lhs') :
      Unfolds code (.binary op lhs rhs) (.binary op lhs' rhs)
  | rhs (op : BinaryOp) (lhs : Operand) {rhs rhs' : Operand} (h : Unfolds code rhs rhs') :
      Unfolds code (.binary op lhs rhs) (.binary op lhs rhs')
  | operand (op : UnaryOp) {operand operand' : Operand} (h : Unfolds code operand operand') :
      Unfolds code (.unary op operand) (.unary op operand')
  | callee {callee callee' : Operand} (args : List Operand) (h : Unfolds code callee callee') :
      Unfolds code (.call callee args) (.call callee' args)
  | arg (callee : Operand) (before : List Operand) {arg arg' : Operand} (after : List Operand)
      (h : Unfolds code arg arg') :
      Unfolds code (.call callee (before ++ arg :: after)) (.call callee (before ++ arg' :: after))

/-- However the temporaries of `o` are unfolded, it comes to an end with `q`, and only there is none left. -/
structure UnfoldsOnlyTo (code : List Instr) (o q : Operand) : Prop where
  terminates : Acc (fun next current => Unfolds code current next) o
  reaches : Relation.ReflTransGen (Unfolds code) o q
  done : q.temps = []
  goesOn : ∀ p, Relation.ReflTransGen (Unfolds code) o p → p ≠ q → p.temps ≠ [] ∧ ∃ next, Unfolds code p next

/-- The operand that each temporary of the code stands for once everything is unfolded. -/
def Solves (f : Temp → Operand) (code : List Instr) : Prop :=
  ∀ t source, .assign (.temp t) source ∈ code → f t = source.subst f

theorem Solves.mono {f : Temp → Operand} {code more : List Instr} (h : Solves f more) (hsub : ∀ i ∈ code, i ∈ more) :
    Solves f code :=
  fun t source hi => h t source (hsub _ hi)

namespace Operand

/-! ## Operations -/

/-- How many operations an operand is made of. -/
def opCount (o : Operand) : Nat := o.walk.countP isComposite

/-- The operations of operands that stand side by side. -/
def opCountAll (os : List Operand) : Nat := (os.flatMap walk).countP isComposite

@[simp] theorem opCountAll_nil : opCountAll [] = 0 := rfl

@[simp] theorem opCountAll_cons (o : Operand) (os : List Operand) : opCountAll (o :: os) = o.opCount + opCountAll os := by
  rw [opCountAll, List.flatMap_cons, List.countP_append]
  rfl

@[simp] theorem opCountAll_append (os os' : List Operand) : opCountAll (os ++ os') = opCountAll os + opCountAll os' := by
  rw [opCountAll, List.flatMap_append, List.countP_append]
  rfl

theorem opCount_eq (o : Operand) : o.opCount = opCountAll o.subOperands + if o.isComposite then 1 else 0 := by
  rw [opCount, walk_eq_cons, List.countP_cons]
  rfl

theorem opCount_element (vector index : Operand) :
    (element vector index).opCount = vector.opCount + index.opCount + 1 := by
  simp [opCount_eq (element vector index), subOperands, isComposite, isSimple]

theorem opCount_binary (op : BinaryOp) (lhs rhs : Operand) :
    (binary op lhs rhs).opCount = lhs.opCount + rhs.opCount + 1 := by
  simp [opCount_eq (binary op lhs rhs), subOperands, isComposite, isSimple]

theorem opCount_unary (op : UnaryOp) (operand : Operand) : (unary op operand).opCount = operand.opCount + 1 := by
  simp [opCount_eq (unary op operand), subOperands, isComposite, isSimple]

theorem opCount_call (callee : Operand) (args : List Operand) :
    (call callee args).opCount = callee.opCount + opCountAll args + 1 := by
  simp [opCount_eq (call callee args), subOperands, isComposite, isSimple]

theorem opCount_pos {o : Operand} (h : o.isComposite = true) : 0 < o.opCount := by
  rw [opCount_eq, if_pos h]
  omega

theorem opCountAll_le_subst {f : Temp → Operand} {os : List Operand} (h : ∀ o ∈ os, o.opCount ≤ (o.subst f).opCount) :
    opCountAll os ≤ opCountAll (substAll f os) := by
  induction os with
  | nil => exact Nat.le_refl _
  | cons o os ih =>
    have ho := h o List.mem_cons_self
    have hos := ih fun o' ho' => h o' (List.mem_cons_of_mem _ ho')
    rw [substAll, opCountAll_cons, opCountAll_cons]
    omega

theorem opCount_le_subst (f : Temp → Operand) (o : Operand) : o.opCount ≤ (o.subst f).opCount := by
  induction o using inductionOn with
  | const | var | func => exact Nat.le_refl _
  | temp t => exact Nat.zero_le _
  | element vector index hv hi =>
    rw [subst, opCount_element, opCount_element]
    omega
  | binary op lhs rhs hl hr =>
    rw [subst, opCount_binary, opCount_binary]
    omega
  | unary op operand h =>
    rw [subst, opCount_unary, opCount_unary]
    omega
  | call callee args hc ha =>
    have hargs := opCountAll_le_subst ha
    rw [subst, opCount_call, opCount_call]
    omega

end Operand

/-! ## One step -/

section
variable {code : List Instr} {o p : Operand} {f : Temp → Operand}

/-- Unfolding does not change what an operand stands for. -/
theorem Unfolds.subst_eq (h : Unfolds code o p) (hf : Solves f code) : p.subst f = o.subst f := by
  induction h with
  | temp h => exact (hf _ _ h).symm
  | vector index _ ih => rw [Operand.subst, ih, Operand.subst]
  | index vector _ ih => rw [Operand.subst, ih, Operand.subst]
  | lhs op rhs _ ih => rw [Operand.subst, ih, Operand.subst]
  | rhs op lhs _ ih => rw [Operand.subst, ih, Operand.subst]
  | operand op _ ih => rw [Operand.subst, ih, Operand.subst]
  | callee args _ ih => rw [Operand.subst, ih, Operand.subst]
  | arg callee before after _ ih => simp only [Operand.subst, Operand.substAll_eq_map, List.map_append, List.map_cons, ih]

/-- Where every source is an operation, a step brings out at least one. -/
theorem Unfolds.opCount_lt (h : Unfolds code o p)
    (hc : ∀ t source, .assign (.temp t) source ∈ code → source.isComposite = true) : o.opCount < p.opCount := by
  induction h with
  | temp h => exact Operand.opCount_pos (hc _ _ h)
  | vector index _ ih | index vector _ ih =>
    rw [Operand.opCount_element, Operand.opCount_element]
    omega
  | lhs op rhs _ ih | rhs op lhs _ ih =>
    rw [Operand.opCount_binary, Operand.opCount_binary]
    omega
  | operand op _ ih =>
    rw [Operand.opCount_unary, Operand.opCount_unary]
    omega
  | callee args _ ih =>
    rw [Operand.opCount_call, Operand.opCount_call]
    omega
  | arg callee before after _ ih =>
    simp only [Operand.opCount_call, Operand.opCountAll_append, Operand.opCountAll_cons]
    omega

/-- A temporary that a step leaves was there before or is read by the code. -/
theorem Unfolds.mem_temps (h : Unfolds code o p) {t : Temp} (ht : t ∈ p.temps) : t ∈ o.temps ∨ t ∈ readTemps code := by
  induction h with
  | temp h => exact .inr (List.mem_flatMap.2 ⟨_, h, ht⟩)
  | vector | index | lhs | rhs =>
    simp only [Operand.temps_element, Operand.temps_binary, List.mem_append] at ht ⊢
    grind
  | operand op _ ih => simpa using ih (by simpa using ht)
  | callee | arg =>
    simp only [Operand.temps_call, List.flatMap_append, List.flatMap_cons, List.mem_append] at ht ⊢
    grind

/-- Wherever a temporary stands that the code assigns, there is a step. -/
theorem exists_unfolds {t : Temp} (ht : t ∈ o.temps) (ha : t ∈ assignedTemps code) : ∃ next, Unfolds code o next := by
  induction o using Operand.inductionOn with
  | const | var | func => cases ht
  | temp x =>
    obtain rfl : t = x := by simpa using ht
    obtain ⟨source, hs⟩ := mem_assignedTemps_iff.1 ha
    exact ⟨source, .temp hs⟩
  | element vector index hv hi =>
    rcases List.mem_append.1 (Operand.temps_element vector index ▸ ht) with ht | ht
    · obtain ⟨next, hn⟩ := hv ht
      exact ⟨_, hn.vector index⟩
    · obtain ⟨next, hn⟩ := hi ht
      exact ⟨_, hn.index vector⟩
  | binary op lhs rhs hl hr =>
    rcases List.mem_append.1 (Operand.temps_binary op lhs rhs ▸ ht) with ht | ht
    · obtain ⟨next, hn⟩ := hl ht
      exact ⟨_, hn.lhs op rhs⟩
    · obtain ⟨next, hn⟩ := hr ht
      exact ⟨_, hn.rhs op lhs⟩
  | unary op operand ho =>
    obtain ⟨next, hn⟩ := ho (Operand.temps_unary op operand ▸ ht)
    exact ⟨_, hn.operand op⟩
  | call callee args hc hargs =>
    rcases List.mem_append.1 (Operand.temps_call callee args ▸ ht) with ht | ht
    · obtain ⟨next, hn⟩ := hc ht
      exact ⟨_, hn.callee args⟩
    · obtain ⟨arg, harg, ht⟩ := List.mem_flatMap.1 ht
      obtain ⟨next, hn⟩ := hargs arg harg ht
      obtain ⟨before, after, rfl⟩ := List.append_of_mem harg
      exact ⟨_, hn.arg callee before after⟩

/-! ## All steps -/

/-- The operations of the operand that `o` stands for in the end bound the steps from `o` on. -/
theorem acc_unfolds (hf : Solves f code)
    (hc : ∀ t source, .assign (.temp t) source ∈ code → source.isComposite = true) (o : Operand) :
    Acc (fun next current => Unfolds code current next) o := by
  let hidden : Operand → Nat := fun o => (o.subst f).opCount - o.opCount
  refine Subrelation.accessible (r := InvImage (· < ·) hidden) ?_ ((InvImage.wf hidden Nat.lt_wfRel.wf).apply o)
  intro next current h
  have hlt := h.opCount_lt hc
  have hle := Operand.opCount_le_subst f next
  change (next.subst f).opCount - next.opCount < (current.subst f).opCount - current.opCount
  rw [h.subst_eq hf] at hle ⊢
  omega

theorem subst_eq_of_reflTransGen (h : Relation.ReflTransGen (Unfolds code) o p) (hf : Solves f code) :
    p.subst f = o.subst f := by
  induction h with
  | refl => rfl
  | tail _ hstep ih => rw [hstep.subst_eq hf, ih]

theorem assigned_of_reflTransGen (h : Relation.ReflTransGen (Unfolds code) o p)
    (hread : ∀ t ∈ readTemps code, t ∈ assignedTemps code) (ho : ∀ t ∈ o.temps, t ∈ assignedTemps code) :
    ∀ t ∈ p.temps, t ∈ assignedTemps code := by
  induction h with
  | refl => exact ho
  | tail _ hstep ih =>
    intro t ht
    rcases hstep.mem_temps ht with ht | ht
    · exact ih t ht
    · exact hread t ht

/-- Steps that come to an end reach an operand from which there is none. -/
theorem exists_reflTransGen_stuck (h : Acc (fun next current => Unfolds code current next) o) :
    ∃ q, Relation.ReflTransGen (Unfolds code) o q ∧ ∀ next, ¬ Unfolds code q next := by
  induction h with
  | intro o _ ih =>
    by_cases hn : ∃ next, Unfolds code o next
    · obtain ⟨next, hn⟩ := hn
      obtain ⟨q, hq, hstuck⟩ := ih next hn
      exact ⟨q, hq.head hn, hstuck⟩
    · exact ⟨o, .refl, not_exists.1 hn⟩

theorem unfoldsOnlyTo_of_solves (hf : Solves f code)
    (hc : ∀ t source, .assign (.temp t) source ∈ code → source.isComposite = true)
    (hread : ∀ t ∈ readTemps code, t ∈ assignedTemps code) (ho : ∀ t ∈ o.temps, t ∈ assignedTemps code) :
    UnfoldsOnlyTo code o (o.subst f) := by
  -- a temporary that is left is assigned, so only an operand without one is stuck, and that one is its own solution
  have hleft : ∀ p, Relation.ReflTransGen (Unfolds code) o p → p.temps ≠ [] → ∃ next, Unfolds code p next := by
    intro p hp hne
    obtain ⟨t, ht⟩ := List.exists_mem_of_ne_nil _ hne
    exact exists_unfolds ht (assigned_of_reflTransGen hp hread ho t ht)
  have hend : ∀ p, Relation.ReflTransGen (Unfolds code) o p → p.temps = [] → p = o.subst f := by
    intro p hp hnil
    rw [← subst_eq_of_reflTransGen hp hf, Operand.subst_of_temps_eq_nil hnil]
  have hacc := acc_unfolds hf hc o
  obtain ⟨q, hq, hstuck⟩ := exists_reflTransGen_stuck hacc
  have hnil : q.temps = [] := by
    by_cases hne : q.temps = []
    · exact hne
    · obtain ⟨next, hn⟩ := hleft q hq hne
      exact absurd hn (hstuck next)
  obtain rfl := hend q hq hnil
  refine ⟨hacc, hq, hnil, fun p hp hne => ?_⟩
  have hpne : p.temps ≠ [] := fun h => hne (hend p hp h)
  exact ⟨hpne, hleft p hp hpne⟩

end

end ThreeAddress.Code
