import UrlRouting.Decimal.Binary64

/-!
# The shortest decimal that reads back

Every binary number has decimals that round to it, and the one to write is that with the fewest
digits; among several, the one nearest to the number. This file finds it in exact integer
arithmetic.

A number `m * 2 ^ q` owns an interval of reals, from halfway to its lower neighbour up to halfway to
its upper one, ends included exactly if `m` is even. In units of `2 ^ (q - 2)` the number is `4 * m`
and the ends are integers too. A *grid* is the set of multiples of a power of ten. If a grid meets
the interval at all, then one of the two grid points beside the number lies in it, since those are
the nearest ones; so it is enough to try these two, on coarser grids before finer ones.
-/

namespace UrlRouting

/-- A decimal: its digits as one natural number, times a power of ten. -/
structure Decimal.Scaled where
  /-- The digits, read as a number. -/
  digits : Nat
  /-- The power of ten. -/
  exponent : Int
  deriving DecidableEq, Repr

namespace Decimal

/-! ### One grid -/

/-- The interval of reals that round to a number, in a unit of its own: the number, the two ends,
and whether the ends belong to it. -/
structure Interval where
  /-- The lower end. -/
  low : Nat
  /-- The number itself. -/
  centre : Nat
  /-- The upper end. -/
  high : Nat
  /-- Do the ends belong to the interval? -/
  closed : Bool
  deriving Repr

/-- Is `a` at most `b`, or below it where the end does not belong? -/
def Interval.reaches (i : Interval) (a b : Nat) : Bool := if i.closed then a ≤ b else a < b

/-- The grid point of the interval that is nearest to its number, on the grid of multiples of
`step / unit`; a tie goes to the even point. Zero is no candidate. -/
def Interval.nearest? (i : Interval) (unit step : Nat) : Option Nat :=
  let below := i.centre * unit / step
  let above := below + 1
  let belowIn := 0 < below && i.reaches (i.low * unit) (below * step)
  let aboveIn := i.reaches (above * step) (i.high * unit)
  let toBelow := i.centre * unit - below * step
  let toAbove := above * step - i.centre * unit
  match belowIn, aboveIn with
  | true, true =>
    if toBelow < toAbove ∨ (toBelow = toAbove ∧ below % 2 = 0) then some below else some above
  | true, false => some below
  | false, true => some above
  | false, false => none

/-! ### All grids, from coarse to fine -/

/-- Tries the grids of the powers of ten from `exponent` downwards, `count` of them. The interval's
unit is `2 ^ scale`. -/
def Interval.shortest (i : Interval) (scale : Int) : Nat → Int → Scaled
  | 0, exponent => ⟨0, exponent⟩
  | count + 1, exponent =>
    let unit := Nat.pow 2 scale.toNat * Nat.pow 10 (-exponent).toNat
    let step := Nat.pow 10 exponent.toNat * Nat.pow 2 (-scale).toNat
    match i.nearest? unit step with
    | some digits => ⟨digits, exponent⟩
    | none => i.shortest scale count (exponent - 1)

end Decimal

/-! ### Numbers -/

namespace Binary64

/-- The reals that round to the magnitude of `x`, in units of `2 ^ (x.exponent - 2)`. -/
def interval (x : Binary64) : Decimal.Interval where
  low := 4 * x.significand - (if x.gapHalves then 1 else 2)
  centre := 4 * x.significand
  high := 4 * x.significand + 2
  closed := x.significand % 2 = 0

/-- The number of decimal digits of a natural number, by repeated division. -/
def decimalLength (n : Nat) : Nat := (Nat.toDigits 10 n).length

/-- The shortest decimal that rounds to the magnitude of `x`. The first grid tried is coarser than
the number, and the last one is finer than the finest numbers are spaced. -/
def shortest (x : Binary64) : Decimal.Scaled :=
  if x.significand = 0 then ⟨0, 0⟩
  else
    let whole := x.significand * Nat.pow 2 x.exponent.toNat / Nat.pow 2 (-x.exponent).toNat
    x.interval.shortest (x.exponent - 2) 400 (decimalLength whole)

end Binary64

end UrlRouting
