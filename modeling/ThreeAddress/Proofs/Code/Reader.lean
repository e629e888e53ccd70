import ThreeAddress.Code.Operand.Text
import ThreeAddress.Proofs.Code.WellFormed
/-!
# Reading operands

An operand is written as a row of tokens, and an operator-precedence reader builds the tree again. The reader goes
through the tokens once. It keeps what is still open as a stack of frames, and the operand read last, if one was, as its
focus. Before a token that ends operands it settles the pending operators that bind at least as tight as that token
asks for. How far a prefix operator reaches to the right is left open: `reach` is the precedence it is settled at.
-/
namespace ThreeAddress.Code

/-- The tree of an operand. What stands at a leaf is known by its text only. -/
inductive Shape where
  | leaf (text : String)
  | element (vector index : Shape)
  | binary (op : BinaryOp) (lhs rhs : Shape)
  | unary (op : UnaryOp) (operand : Shape)
  | call (callee : Shape) (args : List Shape)

inductive Token where
  | leaf (text : String)
  | binary (op : BinaryOp)
  | unary (op : UnaryOp)
  | openGroup
  | closeGroup
  | openIndex
  | closeIndex
  | comma
deriving DecidableEq

def groupIf (wrap : Bool) (ts : List Token) : List Token := if wrap then .openGroup :: (ts ++ [.closeGroup]) else ts

namespace Operand

mutual

def shape : Operand → Shape
  | .const value => .leaf value.render
  | .temp t => .leaf t.render
  | .var v => .leaf v.name
  | .func name => .leaf name
  | .element vector index => .element vector.shape index.shape
  | .binary op lhs rhs => .binary op lhs.shape rhs.shape
  | .unary op operand => .unary op operand.shape
  | .call callee args => .call callee.shape (shapeAll args)

def shapeAll : List Operand → List Shape
  | [] => []
  | a :: as => a.shape :: shapeAll as

end

mutual

/-- The tokens that `render` writes. -/
def tokens : Operand → List Token
  | .const value => [.leaf value.render]
  | .temp t => [.leaf t.render]
  | .var v => [.leaf v.name]
  | .func name => [.leaf name]
  | .element vector index => groupIf vector.isOperation vector.tokens ++ .openIndex :: (index.tokens ++ [.closeIndex])
  | .binary op lhs rhs =>
    groupIf (lhs.loosensLeftOf op) lhs.tokens ++ .binary op :: groupIf (rhs.loosensRightOf op) rhs.tokens
  | .unary op operand => .unary op :: groupIf operand.isOperation operand.tokens
  | .call callee args =>
    groupIf callee.isOperation callee.tokens ++ .openGroup :: ([.comma].intercalate (tokensAll args) ++ [.closeGroup])

def tokensAll : List Operand → List (List Token)
  | [] => []
  | a :: as => a.tokens :: tokensAll as

end

end Operand

/-! ## The reader -/

/-- What is open to the left of the place that is read. -/
inductive Frame where
  | binary (op : BinaryOp) (lhs : Shape)
  | unary (op : UnaryOp)
  | group
  | index (vector : Shape)
  | call (callee : Shape) (done : List Shape)

structure Reader where
  frames : List Frame
  focus : Option Shape

namespace Reader

variable (reach : UnaryOp → Nat)

/-- Gives their last operand to the pending operators that bind at least as tight as `level`. -/
def settle (level : Nat) : List Frame → Shape → List Frame × Shape
  | .binary op lhs :: frames, x =>
    if level ≤ op.precedence then settle level frames (.binary op lhs x) else (.binary op lhs :: frames, x)
  | .unary op :: frames, x =>
    if level ≤ reach op then settle level frames (.unary op x) else (.unary op :: frames, x)
  | frames, x => (frames, x)

def step (r : Reader) (t : Token) : Option Reader :=
  match r.focus, t with
  | none, .leaf text => some ⟨r.frames, some (.leaf text)⟩
  | none, .unary op => some ⟨.unary op :: r.frames, none⟩
  | none, .openGroup => some ⟨.group :: r.frames, none⟩
  | none, .closeGroup =>
    match r.frames with
    | .call callee [] :: frames => some ⟨frames, some (.call callee [])⟩
    | _ => none
  | some x, .binary op =>
    let (frames, lhs) := settle reach op.precedence r.frames x
    some ⟨.binary op lhs :: frames, none⟩
  | some x, .openGroup => some ⟨.call x [] :: r.frames, none⟩
  | some x, .openIndex => some ⟨.index x :: r.frames, none⟩
  | some x, .comma =>
    match settle reach 0 r.frames x with
    | (.call callee done :: frames, arg) => some ⟨.call callee (done ++ [arg]) :: frames, none⟩
    | _ => none
  | some x, .closeGroup =>
    match settle reach 0 r.frames x with
    | (.group :: frames, inner) => some ⟨frames, some inner⟩
    | (.call callee done :: frames, arg) => some ⟨frames, some (.call callee (done ++ [arg]))⟩
    | _ => none
  | some x, .closeIndex =>
    match settle reach 0 r.frames x with
    | (.index vector :: frames, index) => some ⟨frames, some (.element vector index)⟩
    | _ => none
  | _, _ => none

def run (r : Reader) (ts : List Token) : Option Reader := ts.foldlM (step reach) r

/-- The tree of a row of tokens that is nothing but one operand. -/
def read (ts : List Token) : Option Shape := do
  let r ← run reach ⟨[], none⟩ ts
  let x ← r.focus
  match settle reach 0 r.frames x with
  | ([], whole) => some whole
  | _ => none

@[simp] theorem run_nil (r : Reader) : run reach r [] = some r := rfl

@[simp] theorem run_cons (r : Reader) (t : Token) (ts : List Token) :
    run reach r (t :: ts) = (step reach r t).bind fun r' => run reach r' ts := by
  simp [run]

@[simp] theorem run_append (r : Reader) (ts us : List Token) :
    run reach r (ts ++ us) = (run reach r ts).bind fun r' => run reach r' us := by
  simp [run]

variable {reach} {frames frames' : List Frame} {x y : Shape}

theorem step_openGroup : step reach ⟨frames, none⟩ .openGroup = some ⟨.group :: frames, none⟩ := rfl

theorem step_openGroup_call : step reach ⟨frames, some x⟩ .openGroup = some ⟨.call x [] :: frames, none⟩ := rfl

theorem step_openIndex : step reach ⟨frames, some x⟩ .openIndex = some ⟨.index x :: frames, none⟩ := rfl

theorem step_binary {op : BinaryOp} (h : settle reach op.precedence frames x = (frames', y)) :
    step reach ⟨frames, some x⟩ (.binary op) = some ⟨.binary op y :: frames', none⟩ := by
  simp [step, h]

theorem step_comma {callee : Shape} {done : List Shape}
    (h : settle reach 0 frames x = (.call callee done :: frames', y)) :
    step reach ⟨frames, some x⟩ .comma = some ⟨.call callee (done ++ [y]) :: frames', none⟩ := by
  simp [step, h]

theorem step_closeGroup (h : settle reach 0 frames x = (.group :: frames', y)) :
    step reach ⟨frames, some x⟩ .closeGroup = some ⟨frames', some y⟩ := by
  simp [step, h]

theorem step_closeGroup_call {callee : Shape} {done : List Shape}
    (h : settle reach 0 frames x = (.call callee done :: frames', y)) :
    step reach ⟨frames, some x⟩ .closeGroup = some ⟨frames', some (.call callee (done ++ [y]))⟩ := by
  simp [step, h]

theorem step_closeIndex {vector : Shape} (h : settle reach 0 frames x = (.index vector :: frames', y)) :
    step reach ⟨frames, some x⟩ .closeIndex = some ⟨frames', some (.element vector y)⟩ := by
  simp [step, h]

end Reader

end ThreeAddress.Code
