import ThreeAddress.Double
/-!
# The shortest decimal of a double

Of the decimals that read back as a given double we take one with the fewest digits, and of those the nearest. A
decimal reads back when it lies between the midpoints to the neighbouring doubles; a midpoint itself reads back as
the neighbour with the even significand. All comparisons are exact.
-/
namespace ThreeAddress

/-- The number `digits · 10 ^ exponent`. -/
structure Decimal where
  digits : Nat
  exponent : Int
deriving DecidableEq, Repr

namespace Decimal

/-- Compares with `m · 2 ^ q`, after clearing the negative powers on both sides. -/
def compareBinary (d : Decimal) (m : Nat) (q : Int) : Ordering :=
  compare (d.digits * Nat.pow 10 d.exponent.toNat * Nat.pow 2 (-q).toNat)
    (m * Nat.pow 2 q.toNat * Nat.pow 10 (-d.exponent).toNat)

/-- Whether rounding to the nearest double, ties to the even significand, gives the magnitude of `x`. The midpoints
are counted in quarters of the last place of `x`. -/
def readsAs (d : Decimal) (x : Double) : Bool :=
  let quarters := 4 * x.significand
  let below := d.compareBinary (quarters - if x.narrowBelow then 1 else 2) (x.scale - 2)
  let above := d.compareBinary (quarters + 2) (x.scale - 2)
  if x.significand % 2 = 0 then below.isGE && above.isLE else below.isGT && above.isLT

/-- The magnitude of `x` with all its digits. -/
def ofDouble (x : Double) : Decimal :=
  if 0 ≤ x.scale then ⟨x.significand * Nat.pow 2 x.scale.toNat, 0⟩
  else ⟨x.significand * Nat.pow 5 (-x.scale).toNat, x.scale⟩

/-- The neighbour of `x` that reads back, where `low` is the one below and the next decimal of the same exponent the
one above. Of two the nearer is taken, and the upper one when they are equally near. -/
def pick (x : Double) (low : Decimal) : Option Decimal :=
  let high := { low with digits := low.digits + 1 }
  match low.readsAs x, high.readsAs x with
  | true, true =>
    let middle : Decimal := ⟨10 * low.digits + 5, low.exponent - 1⟩
    if (middle.compareBinary x.significand x.scale).isGT then some low else some high
  | true, false => some low
  | false, true => some high
  | false, false => none

/-- The shortest decimal of the magnitude of `x`: lengths 1 to 17 are tried in turn, each with the digits that `x`
itself begins with. -/
def shortest (x : Double) : Decimal :=
  let all := ofDouble x
  let length := (Nat.toDigits 10 all.digits).length
  let ofLength (n : Nat) : Option Decimal :=
    let cut := length - n
    pick x ⟨all.digits / Nat.pow 10 cut, all.exponent + cut⟩
  ((List.range' 1 17).findSome? ofLength).getD all

end Decimal

end ThreeAddress
