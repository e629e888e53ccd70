import ThreeAddress.Log
import ThreeAddress.Code.CodeUnit
import ThreeAddress.Code.TempSupply
import ThreeAddress.Lowering.Config
import ThreeAddress.Lowering.Rejection
/-!
# Lowering sessions

A session is one unit under construction. What was emitted stays when a later step is rejected.
-/
namespace ThreeAddress.Lowering

open Code

structure Session where
  config : Config
  code : CodeUnit
  temps : TempSupply
  log : Log := #[]
deriving DecidableEq, Repr

/-- A step of a session. -/
abbrev Step := EStateM Rejection Session

namespace Session

/-- Starts an empty unit, with temporaries from the given supply. -/
def start (name : String) (config : Config) (temps : TempSupply := {}) : Session :=
  { config, code := { name }, temps }

def intern (name : String) : Step Variable :=
  modifyGet fun s =>
    let (v, code) := s.code.intern name
    (v, { s with code })

def takeTemp : Step Temp :=
  modifyGet fun s =>
    let (t, temps) := s.temps.fresh
    (t, { s with temps })

def emittedRecord (unit : String) (i : Instr) : Record := ⟨.trace, unit ++ ": " ++ i.render⟩

def emit (i : Instr) : Step Unit :=
  modify fun s => { s with code := s.code.push i, log := s.log.push (emittedRecord s.code.name i) }

/-- Gives the operand a fresh temporary as its name. -/
def nameByTemp (source : Operand) : Step Operand := do
  let t ← takeTemp
  emit (.assign (.temp t) source)
  return .temp t

def finishedRecord (s : Session) : Record :=
  ⟨.debug, s!"lowered unit `{s.code.name}`: {s.code.size} instructions, {s.temps.allocated} temporaries"⟩

/-- The unit as it stands. The temporaries reported are all that the supply has given, also to other units. -/
def finish (s : Session) : Logged CodeUnit := ⟨s.code, s.log.push s.finishedRecord⟩

end Session

end ThreeAddress.Lowering
