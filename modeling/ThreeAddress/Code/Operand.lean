import ThreeAddress.Constant
import ThreeAddress.Code.Operator
/-!
# Operands

What an instruction reads. An operand is either simple, so that it can be read directly, or composite: one operation
applied to further operands. Nothing here keeps a composite operand from holding composite ones; that is a property of
verified code.
-/
namespace ThreeAddress.Code

/-- A temporary, ordered by its number. -/
structure Temp where
  id : Nat
deriving DecidableEq, Ord, Repr

/-- A named variable and its place in the variable table. -/
structure Variable where
  name : String
  slot : Nat
deriving DecidableEq, Repr

inductive Operand where
  | const (value : Constant)
  | temp (t : Temp)
  | var (v : Variable)
  | func (name : String)
  | element (vector index : Operand)
  | binary (op : BinaryOp) (lhs rhs : Operand)
  | unary (op : UnaryOp) (operand : Operand)
  | call (callee : Operand) (args : List Operand)
deriving Repr

namespace Operand

/-! ## Equality -/

mutual

/-- Structural equality, with doubles told apart by their bits. -/
def same : Operand → Operand → Bool
  | .const a, .const b => a = b
  | .temp a, .temp b => a = b
  | .var a, .var b => a = b
  | .func a, .func b => a = b
  | .element v i, .element w j => same v w && same i j
  | .binary o l r, .binary p m s => o = p && same l m && same r s
  | .unary o x, .unary p y => o = p && same x y
  | .call f as, .call g bs => same f g && sameAll as bs
  | _, _ => false

def sameAll : List Operand → List Operand → Bool
  | [], [] => true
  | a :: as, b :: bs => same a b && sameAll as bs
  | _, _ => false

end

mutual

theorem same_iff : ∀ a b : Operand, same a b = true ↔ a = b
  | .const _, b => by cases b <;> simp [same]
  | .temp _, b => by cases b <;> simp [same]
  | .var _, b => by cases b <;> simp [same]
  | .func _, b => by cases b <;> simp [same]
  | .element v i, b => by cases b <;> simp [same, same_iff v, same_iff i]
  | .binary _ l r, b => by cases b <;> simp [same, same_iff l, same_iff r, and_assoc]
  | .unary _ x, b => by cases b <;> simp [same, same_iff x]
  | .call f as, b => by cases b <;> simp [same, same_iff f, sameAll_iff as]

theorem sameAll_iff : ∀ as bs : List Operand, sameAll as bs = true ↔ as = bs
  | [], bs => by cases bs <;> simp [sameAll]
  | a :: as, bs => by cases bs <;> simp [sameAll, same_iff a, sameAll_iff as]

end

instance : DecidableEq Operand := fun a b => decidable_of_iff (same a b = true) (same_iff a b)

/-! ## Shape -/

/-- A simple operand is read directly. -/
def isSimple : Operand → Bool
  | .const _ | .temp _ | .var _ | .func _ => true
  | .element .. | .binary .. | .unary .. | .call .. => false

def isComposite (o : Operand) : Bool := !o.isSimple

/-- The operands an operation is applied to, left to right. -/
def subOperands : Operand → List Operand
  | .const _ | .temp _ | .var _ | .func _ => []
  | .element vector index => [vector, index]
  | .binary _ lhs rhs => [lhs, rhs]
  | .unary _ operand => [operand]
  | .call callee args => callee :: args

mutual

/-- The operand and everything below it, parents before children and left before right. -/
def walk : Operand → List Operand
  | .const c => [.const c]
  | .temp t => [.temp t]
  | .var v => [.var v]
  | .func f => [.func f]
  | .element v i => .element v i :: (walk v ++ walk i)
  | .binary op l r => .binary op l r :: (walk l ++ walk r)
  | .unary op x => .unary op x :: walk x
  | .call f as => .call f as :: (walk f ++ walkAll as)

def walkAll : List Operand → List Operand
  | [] => []
  | a :: as => walk a ++ walkAll as

end

theorem walkAll_eq_flatMap (as : List Operand) : walkAll as = as.flatMap walk := by
  induction as with
  | nil => rfl
  | cons a as ih => simp [walkAll, ih]

/-- Below an operand `walk` goes through its sub-operands in turn. -/
theorem walk_eq_cons (o : Operand) : o.walk = o :: o.subOperands.flatMap walk := by
  cases o <;> simp [walk, subOperands, walkAll_eq_flatMap]

def temp? : Operand → Option Temp
  | .temp t => some t
  | _ => none

/-- The temporaries read, in the order of `walk` and as often as they occur. -/
def temps (o : Operand) : List Temp := o.walk.filterMap temp?

/-- An operation reads what its sub-operands read. -/
theorem temps_eq_flatMap {o : Operand} (h : o.isComposite = true) : o.temps = o.subOperands.flatMap temps := by
  have ht : o.temp? = none := by cases o <;> simp_all [isComposite, isSimple, temp?]
  rw [temps, walk_eq_cons, List.filterMap_cons, ht, List.filterMap_flatMap]
  rfl

end Operand

end ThreeAddress.Code
