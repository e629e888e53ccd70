import ThreeAddress.Lowering.Session
/-!
# Lowering

Every operation of an expression is named by a temporary before anything refers to it, so what an expression lowers to
is always a simple operand. Operands are lowered left to right and the first subscript that has no three-address form
ends the step.
-/
namespace ThreeAddress.Lowering

open Source Code

def lowerBinaryOp : Source.BinaryOp → Code.BinaryOp
  | .add => .add
  | .subtract => .sub
  | .multiply => .mul
  | .divide => .div
  | .modulo => .mod
  | .power => .pow
  | .equal => .eq
  | .notEqual => .ne
  | .less => .lt
  | .lessEqual => .le
  | .greater => .gt
  | .greaterEqual => .ge
  | .and => .and
  | .or => .or

def lowerUnaryOp : Source.UnaryOp → Code.UnaryOp
  | .negate => .neg
  | .not => .not

/-- A literal index one position lower. Names, logicals and null carry no position and stay. The least integer has
none below it and is given back as the error. -/
def shiftConstant : Constant → Except Int64 Constant
  | .int value => if value = Int64.minValue then .error value else .ok (.int (value - 1))
  | .double value => .ok (.double value.minusOne)
  | .str text => .ok (.str text)
  | .logical value => .ok (.logical value)
  | .null => .ok .null

/-- A lowered index as a zero-based position. A literal is shifted at once and anything else by an instruction. -/
def toZeroBased (target : Expr) (index : Operand) : Step Operand := do
  match (← get).config.indexBase, index with
  | .zero, index => return index
  | .one, .const value =>
    match shiftConstant value with
    | .ok shifted => return .const shifted
    | .error position => throw (.unshiftableIndex (describe target) position)
  | .one, index => Session.nameByTemp (.binary .sub index (.const (.int 1)))

mutual

/-- Lowers an expression to the simple operand that holds its value. -/
def lowerExpr : Expr → Step Operand
  | .literal value => return .const value
  | .ident name => return .var (← Session.intern name)
  | .binary op left right => do
    let lhs ← lowerExpr left
    let rhs ← lowerExpr right
    Session.nameByTemp (.binary (lowerBinaryOp op) lhs rhs)
  | .unary op operand => do
    let x ← lowerExpr operand
    Session.nameByTemp (.unary (lowerUnaryOp op) x)
  | .subscript target [] => throw (.noIndex (describe target))
  | .subscript target [index] => do
    let vector ← lowerExpr target
    let position ← lowerExpr index
    Session.nameByTemp (.element vector (← toZeroBased target position))
  | .subscript target (_ :: _ :: rest) => throw (.manyIndices (describe target) (rest.length + 2))
  | .call function args => do
    let operands ← lowerArgs args
    Session.nameByTemp (.call (.func function) operands)

def lowerArgs : List Expr → Step (List Operand)
  | [] => return []
  | arg :: args => do
    let operand ← lowerExpr arg
    let operands ← lowerArgs args
    return operand :: operands

end

/-- The assigned name enters the variable table after those of the value. -/
def lowerStmt : Stmt → Step Unit
  | .assign name value => do
    let source ← lowerExpr value
    let v ← Session.intern name
    Session.emit (.assign (.var v) source)
  | .expr value => do
    let _ ← lowerExpr value
    return ()
  | .ret value => do
    Session.emit (.ret (← lowerExpr value))

def lowerStmts : List Stmt → Step Unit
  | [] => return ()
  | stmt :: stmts => do
    lowerStmt stmt
    lowerStmts stmts

/-- Lowers a program as a unit with temporaries of its own. -/
def lowerUnit (config : Config) (name : String) (program : List Stmt) : Logged (Except Rejection CodeUnit) :=
  match lowerStmts program (Session.start name config) with
  | .ok () s => ⟨.ok s.finish.value, s.finish.log⟩
  | .error rejection s => ⟨.error rejection, s.log⟩

end ThreeAddress.Lowering
