import ThreeAddress.Decimal.Layout
import ThreeAddress.Text.Quoted
/-!
# Constants

The values a program can write down, shared by source expressions and three-address code.
-/
namespace ThreeAddress

/-- Equality tells doubles apart by their bits; `Constant.agrees` compares them as numbers. -/
inductive Constant where
  | int (value : Int64)
  | double (value : Double)
  | str (text : String)
  | logical (value : Bool)
  | null
deriving DecidableEq, Repr

namespace Constant

def agrees : Constant → Constant → Bool
  | .int a, .int b => a = b
  | .double a, .double b => a.agrees b
  | .str a, .str b => a = b
  | .logical a, .logical b => a = b
  | .null, .null => true
  | _, _ => false

def render : Constant → String
  | .int value => toString value.toInt
  | .double value => value.render
  | .str text => Text.quote text
  | .logical true => "TRUE"
  | .logical false => "FALSE"
  | .null => "NULL"

end Constant

end ThreeAddress
