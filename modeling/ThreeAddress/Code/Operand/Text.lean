import ThreeAddress.Code.Operand
/-!
# The text of an operand

Whether an operand stands in parentheses depends on its outermost operator and on the one above it. Names are written
as they are.
-/
namespace ThreeAddress.Code

def Temp.render (t : Temp) : String := "t" ++ toString t.id

namespace Operand

/-- Written with an operator symbol and so in need of parentheses below a subscript, a call or a unary operator. -/
def isOperation : Operand → Bool
  | .binary .. | .unary .. => true
  | _ => false

/-- An operand on the left keeps its grouping unless its own operator is looser. -/
def loosensLeftOf (op : BinaryOp) : Operand → Bool
  | .binary inner _ _ => inner.precedence < op.precedence
  | .unary inner _ => inner.precedence < op.precedence
  | _ => false

/-- An operand on the right also loses its grouping to an operator of the same precedence. A unary operator there is
never put in parentheses. -/
def loosensRightOf (op : BinaryOp) : Operand → Bool
  | .binary inner _ _ => inner.precedence ≤ op.precedence
  | _ => false

def parenthesizeIf (wrap : Bool) (text : String) : String := if wrap then "(" ++ text ++ ")" else text

mutual

def render : Operand → String
  | .const value => value.render
  | .temp t => t.render
  | .var v => v.name
  | .func name => name
  | .element vector index => parenthesizeIf vector.isOperation vector.render ++ "[" ++ index.render ++ "]"
  | .binary op lhs rhs =>
    parenthesizeIf (lhs.loosensLeftOf op) lhs.render ++ " " ++ op.symbol ++ " " ++
      parenthesizeIf (rhs.loosensRightOf op) rhs.render
  | .unary op operand => op.symbol ++ parenthesizeIf operand.isOperation operand.render
  | .call callee args =>
    parenthesizeIf callee.isOperation callee.render ++ "(" ++ ", ".intercalate (renderAll args) ++ ")"

def renderAll : List Operand → List String
  | [] => []
  | a :: as => a.render :: renderAll as

end

theorem renderAll_eq_map (as : List Operand) : renderAll as = as.map render := by
  induction as with
  | nil => rfl
  | cons a as ih => simp [renderAll, ih]

end Operand

end ThreeAddress.Code
