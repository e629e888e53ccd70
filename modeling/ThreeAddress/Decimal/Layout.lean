import ThreeAddress.Decimal.Shortest
/-!
# The text of a double

Magnitudes from `1e-4` up to `1e16` are written positionally with at least one digit on either side of the point,
all others as one leading digit, the rest of the digits and an exponent.
-/
namespace ThreeAddress

namespace Decimal

/-- The digits without the zeros at their end. -/
def significantDigits (d : Decimal) : List Char :=
  ((Nat.toDigits 10 d.digits).reverse.dropWhile (· = '0')).reverse

/-- The power of ten of the first digit. -/
def magnitude (d : Decimal) : Int := (Nat.toDigits 10 d.digits).length - 1 + d.exponent

/-- `ds`, of which the first has power of ten `e`, written with a point and no exponent. -/
def positional (ds : List Char) (e : Int) : List Char :=
  if e < 0 then
    '0' :: '.' :: (List.replicate (-e - 1).toNat '0' ++ ds)
  else
    let whole := e.toNat + 1
    let rest := if ds.length ≤ whole then ['0'] else ds.drop whole
    ds.take whole ++ List.replicate (whole - ds.length) '0' ++ '.' :: rest

/-- `ds`, of which the first has power of ten `e`, written with an exponent. A single digit has no point. -/
def exponential (ds : List Char) (e : Int) : List Char :=
  let point := if ds.length ≤ 1 then [] else '.' :: ds.drop 1
  ds.take 1 ++ point ++ 'e' :: (toString e).toList

def layout (d : Decimal) : List Char :=
  if -4 ≤ d.magnitude ∧ d.magnitude < 16 then positional d.significantDigits d.magnitude
  else exponential d.significantDigits d.magnitude

end Decimal

/-- Every NaN is `NaN`, also one whose sign bit is set. -/
def Double.render (x : Double) : String :=
  if x.isNaN then "NaN"
  else
    let sign := if x.isNegative then "-" else ""
    let size :=
      if x.isInfinite then "Inf"
      else if x.isZero then "0.0"
      else String.ofList (Decimal.shortest x).layout
    sign ++ size

end ThreeAddress
