import ThreeAddress.Source.Syntax
import ThreeAddress.Lowering.Config
/-!
# What a source program means

The meaning of a program is taken over any values and worlds. An operation is given values and a world and answers
with a value and the world it leaves, so that the order and the number of the operations can be observed. Operations
do not touch variables, and every variable has a value.

Expressions are evaluated from left to right and statements are run in order up to the first return. A subscript
without exactly one index has no meaning.
-/
namespace ThreeAddress.Meaning

open Source Lowering

universe u

/-- The meaning of constants and operations. A function can be called by its name, and it can be a value that is
called. -/
structure Interp (V W : Type u) where
  const : Constant → V
  func : String → V
  add : V → V → W → V × W
  subtract : V → V → W → V × W
  multiply : V → V → W → V × W
  divide : V → V → W → V × W
  modulo : V → V → W → V × W
  power : V → V → W → V × W
  equal : V → V → W → V × W
  notEqual : V → V → W → V × W
  less : V → V → W → V × W
  lessEqual : V → V → W → V × W
  greater : V → V → W → V × W
  greaterEqual : V → V → W → V × W
  and : V → V → W → V × W
  or : V → V → W → V × W
  negate : V → W → V × W
  not : V → W → V × W
  element : V → V → W → V × W
  callNamed : String → List V → W → V × W
  callValue : V → List V → W → V × W

/-- Every operation answers with the number of operations before it. -/
def counting : Interp Nat Nat where
  const _ := 0
  func _ := 0
  add _ _ n := (n, n + 1)
  subtract _ _ n := (n, n + 1)
  multiply _ _ n := (n, n + 1)
  divide _ _ n := (n, n + 1)
  modulo _ _ n := (n, n + 1)
  power _ _ n := (n, n + 1)
  equal _ _ n := (n, n + 1)
  notEqual _ _ n := (n, n + 1)
  less _ _ n := (n, n + 1)
  lessEqual _ _ n := (n, n + 1)
  greater _ _ n := (n, n + 1)
  greaterEqual _ _ n := (n, n + 1)
  and _ _ n := (n, n + 1)
  or _ _ n := (n, n + 1)
  negate _ n := (n, n + 1)
  not _ n := (n, n + 1)
  element _ _ n := (n, n + 1)
  callNamed _ _ n := (n, n + 1)
  callValue _ _ n := (n, n + 1)

/-- How a run ended: the value it returned, if it came to a return, and the variables and the world it left. -/
structure Halt (M V W : Type u) where
  returned : Option V
  memory : M
  world : W

variable {V W : Type u}

def ofBinaryOp (I : Interp V W) : Source.BinaryOp → V → V → W → V × W
  | .add => I.add
  | .subtract => I.subtract
  | .multiply => I.multiply
  | .divide => I.divide
  | .modulo => I.modulo
  | .power => I.power
  | .equal => I.equal
  | .notEqual => I.notEqual
  | .less => I.less
  | .lessEqual => I.lessEqual
  | .greater => I.greater
  | .greaterEqual => I.greaterEqual
  | .and => I.and
  | .or => I.or

def ofUnaryOp (I : Interp V W) : Source.UnaryOp → V → W → V × W
  | .negate => I.negate
  | .not => I.not

/-- The position that an index with the given value stands for. A one-based literal number is one less, and the least
integer has none below it. Other literals carry no position. From any other index one is subtracted. -/
def convertIndex (I : Interp V W) (base : IndexBase) (index : Expr) (value : V) (w : W) : Option (V × W) :=
  match base, index with
  | .zero, _ => some (value, w)
  | .one, .literal (.int k) => if k = Int64.minValue then none else some (I.const (.int (k - 1)), w)
  | .one, .literal (.double d) => some (I.const (.double d.minusOne), w)
  | .one, .literal _ => some (value, w)
  | .one, _ => some (I.subtract value (I.const (.int 1)) w)

mutual

/-- The value of an expression and the world its operations leave. -/
def evalExpr (I : Interp V W) (base : IndexBase) (env : String → V) : Expr → W → Option (V × W)
  | .literal value, w => some (I.const value, w)
  | .ident name, w => some (env name, w)
  | .binary op left right, w => do
    let (a, w) ← evalExpr I base env left w
    let (b, w) ← evalExpr I base env right w
    return ofBinaryOp I op a b w
  | .unary op operand, w => do
    let (a, w) ← evalExpr I base env operand w
    return ofUnaryOp I op a w
  | .subscript _ [], _ => none
  | .subscript target [index], w => do
    let (vector, w) ← evalExpr I base env target w
    let (value, w) ← evalExpr I base env index w
    let (position, w) ← convertIndex I base index value w
    return I.element vector position w
  | .subscript _ (_ :: _ :: _), _ => none
  | .call function args, w => do
    let (values, w) ← evalArgs I base env args w
    return I.callNamed function values w

def evalArgs (I : Interp V W) (base : IndexBase) (env : String → V) : List Expr → W → Option (List V × W)
  | [], w => some ([], w)
  | arg :: args, w => do
    let (value, w) ← evalExpr I base env arg w
    let (values, w) ← evalArgs I base env args w
    return (value :: values, w)

end

def assignVar (env : String → V) (name : String) (value : V) : String → V :=
  fun other => if other = name then value else env other

/-- Runs statements up to the first return. -/
def runStmts (I : Interp V W) (base : IndexBase) :
    List Stmt → (String → V) → W → Option (Halt (String → V) V W)
  | [], env, w => some ⟨none, env, w⟩
  | .assign name value :: stmts, env, w => do
    let (v, w) ← evalExpr I base env value w
    runStmts I base stmts (assignVar env name v) w
  | .expr value :: stmts, env, w => do
    let (_, w) ← evalExpr I base env value w
    runStmts I base stmts env w
  | .ret value :: _, env, w => do
    let (v, w) ← evalExpr I base env value w
    return ⟨some v, env, w⟩

end ThreeAddress.Meaning
