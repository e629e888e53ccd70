import ThreeAddress.Constant
/-!
# Source programs

Expressions nest freely. A subscript may be written with any number of indices; only one is given a meaning.
-/
namespace ThreeAddress.Source

inductive BinaryOp where
  | add | subtract | multiply | divide | modulo | power
  | equal | notEqual | less | lessEqual | greater | greaterEqual
  | and | or
deriving DecidableEq, Repr

inductive UnaryOp where
  | negate | not
deriving DecidableEq, Repr

inductive Expr where
  | literal (value : Constant)
  | ident (name : String)
  | binary (op : BinaryOp) (left right : Expr)
  | unary (op : UnaryOp) (operand : Expr)
  | subscript (target : Expr) (indices : List Expr)
  | call (function : String) (args : List Expr)
deriving Repr

inductive Stmt where
  | assign (name : String) (value : Expr)
  | expr (value : Expr)
  | ret (value : Expr)
deriving Repr

/-! ## Agreement

Two programs agree when they are built alike and their literals agree as values. It is not reflexive: a NaN agrees
with nothing. -/

namespace Expr

mutual

def agrees : Expr → Expr → Bool
  | .literal a, .literal b => a.agrees b
  | .ident a, .ident b => a = b
  | .binary o l r, .binary p m s => o = p && agrees l m && agrees r s
  | .unary o x, .unary p y => o = p && agrees x y
  | .subscript t is, .subscript u js => agrees t u && agreesAll is js
  | .call f as, .call g bs => f = g && agreesAll as bs
  | _, _ => false

def agreesAll : List Expr → List Expr → Bool
  | [], [] => true
  | a :: as, b :: bs => agrees a b && agreesAll as bs
  | _, _ => false

end

end Expr

def Stmt.agrees : Stmt → Stmt → Bool
  | .assign a x, .assign b y => a = b && x.agrees y
  | .expr x, .expr y => x.agrees y
  | .ret x, .ret y => x.agrees y
  | _, _ => false

end ThreeAddress.Source
