import ThreeAddress.Code.CodeUnit
import ThreeAddress.Proofs.Meaning.Source
/-!
# A machine for three-address code

The machine keeps variables by slot and temporaries by number. It goes through the instructions in order and stops at
the first return. Reading a temporary or a slot that holds nothing stops it without a result.
-/
namespace ThreeAddress.Meaning

open Code

universe u

structure Machine (V W : Type u) where
  temps : Temp → Option V
  slots : Nat → Option V
  world : W

variable {V W : Type u}

def ofCodeBinaryOp (I : Interp V W) : Code.BinaryOp → V → V → W → V × W
  | .add => I.add
  | .sub => I.subtract
  | .mul => I.multiply
  | .div => I.divide
  | .mod => I.modulo
  | .pow => I.power
  | .eq => I.equal
  | .ne => I.notEqual
  | .lt => I.less
  | .le => I.lessEqual
  | .gt => I.greater
  | .ge => I.greaterEqual
  | .and => I.and
  | .or => I.or

def ofCodeUnaryOp (I : Interp V W) : Code.UnaryOp → V → W → V × W
  | .neg => I.negate
  | .not => I.not

mutual

/-- The value of an operand in the machine `m`, whose own world does not count, and the world its operations leave. -/
def evalOperand (I : Interp V W) (m : Machine V W) : Operand → W → Option (V × W)
  | .const value, w => some (I.const value, w)
  | .temp t, w => (m.temps t).map (·, w)
  | .var v, w => (m.slots v.slot).map (·, w)
  | .func name, w => some (I.func name, w)
  | .element vector index, w => do
    let (a, w) ← evalOperand I m vector w
    let (b, w) ← evalOperand I m index w
    return I.element a b w
  | .binary op lhs rhs, w => do
    let (a, w) ← evalOperand I m lhs w
    let (b, w) ← evalOperand I m rhs w
    return ofCodeBinaryOp I op a b w
  | .unary op operand, w => do
    let (a, w) ← evalOperand I m operand w
    return ofCodeUnaryOp I op a w
  -- a function that is called by its name is not read as a value
  | .call (.func name) args, w => do
    let (values, w) ← evalOperands I m args w
    return I.callNamed name values w
  | .call callee args, w => do
    let (f, w) ← evalOperand I m callee w
    let (values, w) ← evalOperands I m args w
    return I.callValue f values w

def evalOperands (I : Interp V W) (m : Machine V W) : List Operand → W → Option (List V × W)
  | [], w => some ([], w)
  | o :: os, w => do
    let (value, w) ← evalOperand I m o w
    let (values, w) ← evalOperands I m os w
    return (value :: values, w)

end

namespace Machine

def write (m : Machine V W) (target : Target) (value : V) (w : W) : Machine V W :=
  match target with
  | .temp t => { m with temps := fun u => if u = t then some value else m.temps u, world := w }
  | .var v => { m with slots := fun slot => if slot = v.slot then some value else m.slots slot, world := w }

/-- Runs instructions up to the first return. -/
def run (I : Interp V W) : List Instr → Machine V W → Option (Halt (Nat → Option V) V W)
  | [], m => some ⟨none, m.slots, m.world⟩
  | .assign target source :: rest, m => do
    let (value, w) ← evalOperand I m source m.world
    run I rest (m.write target value w)
  | .ret value :: _, m => do
    let (v, w) ← evalOperand I m value m.world
    return ⟨some v, m.slots, w⟩

/-- The slots of a variable table, each with the value of its name. -/
def load (table : VarTable) (env : String → V) : Nat → Option V := fun slot => (table.names[slot]?).map env

/-- A machine with the variables of a table and no temporaries. -/
def start (table : VarTable) (env : String → V) (w : W) : Machine V W := ⟨fun _ => none, load table env, w⟩

end Machine

end ThreeAddress.Meaning
