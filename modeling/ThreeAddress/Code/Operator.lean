/-!
# Operators of three-address code

Each operator has a symbol and a precedence; a higher precedence binds tighter.
-/
namespace ThreeAddress.Code

inductive BinaryOp where
  | add | sub | mul | div | mod | pow
  | eq | ne | lt | le | gt | ge
  | and | or
deriving DecidableEq, Repr

inductive UnaryOp where
  | neg | not
deriving DecidableEq, Repr

def BinaryOp.symbol : BinaryOp → String
  | .add => "+"
  | .sub => "-"
  | .mul => "*"
  | .div => "/"
  | .mod => "%%"
  | .pow => "^"
  | .eq => "=="
  | .ne => "!="
  | .lt => "<"
  | .le => "<="
  | .gt => ">"
  | .ge => ">="
  | .and => "&"
  | .or => "|"

def UnaryOp.symbol : UnaryOp → String
  | .neg => "-"
  | .not => "!"

def BinaryOp.precedence : BinaryOp → Nat
  | .or => 1
  | .and => 2
  | .eq | .ne | .lt | .le | .gt | .ge => 4
  | .add | .sub => 5
  | .mul | .div => 6
  | .mod => 7
  | .pow => 9

/-- `!` is looser than a comparison and `-` is looser than `^`. -/
def UnaryOp.precedence : UnaryOp → Nat
  | .not => 3
  | .neg => 8

end ThreeAddress.Code
