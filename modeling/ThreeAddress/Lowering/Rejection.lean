import ThreeAddress.Source.Syntax
/-!
# Programs that cannot be lowered
-/
namespace ThreeAddress.Lowering

open Source

/-- Why a subscript has no three-address form. -/
inductive Rejection where
  | noIndex (target : String)
  | manyIndices (target : String) (count : Nat)
  | unshiftableIndex (target : String) (index : Int64)
deriving DecidableEq, Repr

def Rejection.message : Rejection → String
  | .noIndex target => s!"subscript of `{target}` has no index"
  | .manyIndices target count =>
    s!"subscript of `{target}` has {count} indices, only single-index access is supported"
  | .unshiftableIndex target index =>
    s!"index {index.toInt} of `{target}` cannot be shifted to a zero-based position"

/-- How a rejection names the expression that is subscripted. -/
def describe : Expr → String
  | .ident name => name
  | .call function _ => function ++ "(...)"
  | _ => "<expression>"

end ThreeAddress.Lowering
