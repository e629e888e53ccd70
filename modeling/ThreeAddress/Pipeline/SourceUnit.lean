import ThreeAddress.Source.Syntax
import ThreeAddress.Code.CodeUnit
/-!
# Source units

A program on its way to verified code.
-/
namespace ThreeAddress

open Source Code

inductive Stage where
  | parsed | lowered | verified | failed
deriving DecidableEq, Repr

/-- Verified and failed units stay where they are. -/
def Stage.next : Stage → Stage
  | .parsed => .lowered
  | .lowered => .verified
  | .verified => .verified
  | .failed => .failed

structure SourceUnit where
  name : String
  program : List Stmt
  code : Option CodeUnit := none
  stage : Stage := .parsed
deriving Repr

namespace SourceUnit

def advance (u : SourceUnit) : SourceUnit := { u with stage := u.stage.next }

/-- Where a unit starts over. -/
def reset (u : SourceUnit) : SourceUnit := { u with stage := .parsed, code := none }

def isVerified (u : SourceUnit) : Bool := u.stage = .verified

end SourceUnit

end ThreeAddress
