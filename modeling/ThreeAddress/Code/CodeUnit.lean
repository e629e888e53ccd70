import ThreeAddress.Code.Instr
import ThreeAddress.Code.VarTable
/-!
# Code units

A named list of instructions with the variables it uses.
-/
namespace ThreeAddress.Code

structure CodeUnit where
  name : String := ""
  instrs : Array Instr := #[]
  vars : VarTable := {}
deriving DecidableEq, Repr

namespace CodeUnit

def push (u : CodeUnit) (i : Instr) : CodeUnit := { u with instrs := u.instrs.push i }

@[simp] theorem toList_instrs_push (u : CodeUnit) (i : Instr) :
    (u.push i).instrs.toList = u.instrs.toList ++ [i] := by simp [push]

def intern (u : CodeUnit) (name : String) : Variable × CodeUnit :=
  let (v, vars) := u.vars.intern name
  (v, { u with vars })

def lookup? (u : CodeUnit) (name : String) : Option Variable := u.vars.lookup? name

def rename (u : CodeUnit) (name : String) : CodeUnit := { u with name }

def size (u : CodeUnit) : Nat := u.instrs.size

/-- One instruction a line, without a newline at the end. -/
def dump (u : CodeUnit) : String := "\n".intercalate (u.instrs.toList.map Instr.render)

/-- A position, right-aligned in four columns. -/
def renderPosition (n : Nat) : String :=
  let digits := Nat.toDigits 10 n
  String.ofList (List.replicate (4 - digits.length) ' ' ++ digits)

/-- A heading and one numbered instruction a line, each line ended. -/
def render (u : CodeUnit) : String :=
  let line : Instr × Nat → String := fun (i, n) => renderPosition n ++ ": " ++ i.render ++ "\n"
  "unit " ++ u.name ++ ":\n" ++ String.join (u.instrs.toList.zipIdx.map line)

end CodeUnit

end ThreeAddress.Code
