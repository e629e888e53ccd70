import ThreeAddress.Code.Operand.Text
/-!
# Instructions

An instruction assigns an operand to a temporary or a variable, or returns one.
-/
namespace ThreeAddress.Code

inductive Target where
  | temp (t : Temp)
  | var (v : Variable)
deriving DecidableEq, Repr

namespace Target

def temp? : Target → Option Temp
  | .temp t => some t
  | .var _ => none

def toOperand : Target → Operand
  | .temp t => .temp t
  | .var v => .var v

def render : Target → String
  | .temp t => t.render
  | .var v => v.name

end Target

inductive Instr where
  | assign (target : Target) (source : Operand)
  | ret (value : Operand)
deriving DecidableEq, Repr

namespace Instr

def target? : Instr → Option Target
  | .assign target _ => some target
  | .ret _ => none

/-- The temporary it assigns. -/
def producedTemp? (i : Instr) : Option Temp := i.target?.bind Target.temp?

/-- The operand it reads. -/
def source : Instr → Operand
  | .assign _ source => source
  | .ret value => value

def usedTemps (i : Instr) : List Temp := i.source.temps

def render : Instr → String
  | .assign target source => target.render ++ " := " ++ source.render
  | .ret value => "return " ++ value.render

end Instr

end ThreeAddress.Code
