import ThreeAddress.Proofs.Code.WellFormed
/-!
# Temporaries of operands and of code

The temporaries of an operand are those of its parts, from left to right. `Operand.subst` puts an operand in the place
of each of them and looks at nothing else (`Operand.subst_congr`).
-/
namespace ThreeAddress.Code

namespace Operand

@[simp] theorem temps_const (value : Constant) : (Operand.const value).temps = [] := rfl

@[simp] theorem temps_var (v : Variable) : (Operand.var v).temps = [] := rfl

@[simp] theorem temps_func (name : String) : (Operand.func name).temps = [] := rfl

@[simp] theorem temps_element (vector index : Operand) : (element vector index).temps = vector.temps ++ index.temps := by
  simp [temps_eq_flatMap (o := element vector index) rfl, subOperands]

@[simp] theorem temps_binary (op : BinaryOp) (lhs rhs : Operand) : (binary op lhs rhs).temps = lhs.temps ++ rhs.temps := by
  simp [temps_eq_flatMap (o := binary op lhs rhs) rfl, subOperands]

@[simp] theorem temps_unary (op : UnaryOp) (operand : Operand) : (unary op operand).temps = operand.temps := by
  simp [temps_eq_flatMap (o := unary op operand) rfl, subOperands]

@[simp] theorem temps_call (callee : Operand) (args : List Operand) :
    (call callee args).temps = callee.temps ++ args.flatMap temps := by
  simp [temps_eq_flatMap (o := call callee args) rfl, subOperands]

/-! ## Substitution -/

mutual

/-- Puts an operand in the place of every temporary. -/
def subst (f : Temp → Operand) : Operand → Operand
  | .const value => .const value
  | .temp t => f t
  | .var v => .var v
  | .func name => .func name
  | .element vector index => .element (subst f vector) (subst f index)
  | .binary op lhs rhs => .binary op (subst f lhs) (subst f rhs)
  | .unary op operand => .unary op (subst f operand)
  | .call callee args => .call (subst f callee) (substAll f args)

def substAll (f : Temp → Operand) : List Operand → List Operand
  | [] => []
  | o :: os => subst f o :: substAll f os

end

theorem substAll_eq_map (f : Temp → Operand) (os : List Operand) : substAll f os = os.map (subst f) := by
  induction os with
  | nil => rfl
  | cons o os ih => rw [substAll, ih, List.map_cons]

theorem subst_congr {f g : Temp → Operand} {o : Operand} (h : ∀ t ∈ o.temps, f t = g t) : o.subst f = o.subst g := by
  induction o using inductionOn with
  | const | var | func => rfl
  | temp t => exact h t (by simp)
  | element vector index hv hi =>
    rw [subst, subst, hv fun t ht => h t (by simp [ht]), hi fun t ht => h t (by simp [ht])]
  | binary op lhs rhs hl hr =>
    rw [subst, subst, hl fun t ht => h t (by simp [ht]), hr fun t ht => h t (by simp [ht])]
  | unary op operand ho => rw [subst, subst, ho fun t ht => h t (by simpa using ht)]
  | call callee args hc ha =>
    rw [subst, subst, hc fun t ht => h t (by simp [ht]), substAll_eq_map, substAll_eq_map]
    have hargs : args.map (subst f) = args.map (subst g) := by
      refine List.map_congr_left fun arg harg => ha arg harg fun t ht => h t ?_
      rw [temps_call, List.mem_append, List.mem_flatMap]
      exact .inr ⟨arg, harg, ht⟩
    rw [hargs]

theorem subst_temp (o : Operand) : o.subst .temp = o := by
  induction o using inductionOn with
  | const | temp | var | func => rfl
  | element vector index hv hi => rw [subst, hv, hi]
  | binary op lhs rhs hl hr => rw [subst, hl, hr]
  | unary op operand h => rw [subst, h]
  | call callee args hc ha =>
    have hargs : args.map (subst .temp) = args := (List.map_congr_left ha).trans (List.map_id args)
    rw [subst, hc, substAll_eq_map, hargs]

theorem subst_of_temps_eq_nil {o : Operand} (h : o.temps = []) (f : Temp → Operand) : o.subst f = o := by
  rw [subst_congr (g := .temp) (by simp [h]), subst_temp]

end Operand

/-! ## Code -/

/-- The temporaries that are assigned, in the order of the instructions. -/
def assignedTemps (code : List Instr) : List Temp := code.filterMap Instr.producedTemp?

theorem assignedTemps_append (code rest : List Instr) :
    assignedTemps (code ++ rest) = assignedTemps code ++ assignedTemps rest :=
  List.filterMap_append

theorem mem_assignedTemps_iff {code : List Instr} {t : Temp} :
    t ∈ assignedTemps code ↔ ∃ source, .assign (.temp t) source ∈ code := by
  simp only [assignedTemps, List.mem_filterMap, Instr.producedTemp?_eq_some_iff]
  constructor
  · rintro ⟨i, hi, source, rfl⟩
    exact ⟨source, hi⟩
  · rintro ⟨source, h⟩
    exact ⟨_, h, source, rfl⟩

/-- The temporaries that are read, in the order of the instructions and as often as they occur. -/
def readTemps (code : List Instr) : List Temp := code.flatMap Instr.usedTemps

end ThreeAddress.Code
