import ThreeAddress.Log
import ThreeAddress.Code.CodeUnit
/-!
# Well-formed code

Verification reads a unit once from the front and stops at the first instruction that breaks a rule: no composite
operand inside another or in a return, every temporary assigned before it is read, no temporary assigned twice. The
rules are tried in that order.
-/
namespace ThreeAddress.Code

/-- What is wrong with a unit, and at which position. -/
inductive Malformed where
  | nestedComposite (position : Nat) (operand sub : String)
  | compositeReturn (position : Nat) (operand : String)
  | reassignedTemp (temp : Temp) (first position : Nat)
  | undefinedTemp (temp : Temp) (position : Nat)
deriving DecidableEq, Repr

def Malformed.message : Malformed → String
  | .nestedComposite position operand sub =>
    s!"instruction {position}: `{operand}` is not normalized, `{sub}` must be named by a temporary first"
  | .compositeReturn position operand =>
    s!"instruction {position}: composite operand `{operand}` cannot appear here"
  | .reassignedTemp temp first position =>
    s!"instruction {position}: {temp.render} already produced by instruction {first}"
  | .undefinedTemp temp position =>
    s!"instruction {position}: {temp.render} used before it is defined"

/-- The temporaries assigned so far, each with the position that assigned it. -/
abbrev Producers := List (Temp × Nat)

namespace Instr

/-- A composite operand where only a simple one may stand. -/
def misshape? (position : Nat) : Instr → Option Malformed
  | .assign _ source =>
    (source.subOperands.find? Operand.isComposite).map fun sub =>
      .nestedComposite position source.render sub.render
  | .ret value => if value.isComposite then some (.compositeReturn position value.render) else none

/-- A temporary read that nothing has assigned. -/
def undefinedUse? (producers : Producers) (position : Nat) (i : Instr) : Option Malformed :=
  (i.usedTemps.find? fun t => (producers.lookup t).isNone).map (.undefinedTemp · position)

/-- A temporary assigned that something has assigned before. -/
def redefinition? (producers : Producers) (position : Nat) (i : Instr) : Option Malformed :=
  i.producedTemp?.bind fun t => (producers.lookup t).map (.reassignedTemp t · position)

def fault? (producers : Producers) (position : Nat) (i : Instr) : Option Malformed :=
  (i.misshape? position).or ((i.undefinedUse? producers position).or (i.redefinition? producers position))

/-- The producers once the instruction is done. -/
def record (producers : Producers) (position : Nat) (i : Instr) : Producers :=
  match i.producedTemp? with
  | some t => (t, position) :: producers
  | none => producers

end Instr

/-- Verifies instructions that stand from `position` on. -/
def verifyFrom (producers : Producers) (position : Nat) : List Instr → Except Malformed Unit
  | [] => .ok ()
  | i :: rest =>
    match i.fault? producers position with
    | some fault => .error fault
    | none => verifyFrom (i.record producers position) (position + 1) rest

namespace CodeUnit

def verify (u : CodeUnit) : Except Malformed Unit := verifyFrom [] 0 u.instrs.toList

def verifiedRecord (u : CodeUnit) : Record := ⟨.trace, s!"verified unit `{u.name}` ({u.size} instructions)"⟩

/-- Verification leaves a record when it succeeds. -/
def verifyLogged (u : CodeUnit) : Logged (Except Malformed Unit) :=
  match u.verify with
  | .ok () => ⟨.ok (), #[u.verifiedRecord]⟩
  | .error fault => ⟨.error fault, #[]⟩

end CodeUnit

end ThreeAddress.Code
