/-!
# Double-precision numbers

A double is kept as its 64 bits, so that every NaN stays the value it was written as. The finite ones are
`significand · 2 ^ scale` up to their sign.
-/
namespace ThreeAddress

/-- A double-precision number. Equality is equality of bits: `0.0` and `-0.0` differ and every NaN equals itself. -/
structure Double where
  bits : UInt64
deriving DecidableEq, Repr

namespace Double

def isNegative (x : Double) : Bool := Nat.pow 2 63 ≤ x.bits.toNat

/-- The biased exponent, from 0 to 2047. -/
def exponentField (x : Double) : Nat := x.bits.toNat / Nat.pow 2 52 % Nat.pow 2 11

/-- The 52 bits below the exponent. -/
def fraction (x : Double) : Nat := x.bits.toNat % Nat.pow 2 52

def isNaN (x : Double) : Bool := x.exponentField == 2047 && x.fraction != 0

def isInfinite (x : Double) : Bool := x.exponentField == 2047 && x.fraction == 0

def isZero (x : Double) : Bool := x.exponentField == 0 && x.fraction == 0

/-- The leading one is implied unless the exponent field is 0. -/
def significand (x : Double) : Nat := if x.exponentField = 0 then x.fraction else Nat.pow 2 52 + x.fraction

def scale (x : Double) : Int := (max x.exponentField 1 : Nat) - 1075

/-- The next smaller magnitude is half as far away as the next larger one. -/
def narrowBelow (x : Double) : Bool := x.fraction == 0 && 1 < x.exponentField

/-- Numeric equality: the two zeros agree and a NaN agrees with nothing. -/
def agrees (x y : Double) : Bool := !x.isNaN && !y.isNaN && (x = y || x.isZero && y.isZero)

/-- One less, rounded to the nearest double. Of a NaN it is some NaN: which bits it has is left open by the language,
and here they are those of `x`. -/
def minusOne (x : Double) : Double := if x.isNaN then x else ⟨(Float.ofBits x.bits - 1.0).toBits⟩

end Double

end ThreeAddress
