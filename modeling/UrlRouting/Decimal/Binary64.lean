/-!
# Binary floating-point numbers of 64 bits

A number is kept as its bit pattern, so that equality of patterns is decidable and nothing about it
depends on the opaque type of machine floats. Only finite numbers are meant: JSON has no others.

The magnitude of a number is `significand * 2 ^ exponent`, both read off the pattern: 52 bits of
fraction below 11 bits of exponent, with an implicit leading one unless the exponent field is zero.
The two patterns of zero are different numbers with the same value
(`UrlRouting.Binary64.sameValue`).
-/

namespace UrlRouting

/-- A finite binary floating-point number, by its 64 bits. -/
structure Binary64 where
  /-- The bit pattern: sign, exponent field, fraction. -/
  bits : UInt64
  deriving DecidableEq, Repr

namespace Binary64

/-! ### The parts of the pattern -/

/-- The number of values of the fraction field, which is also the weight of the implicit leading
one. -/
def fractionCount : Nat := 0x10000000000000

/-- Is the sign bit set? -/
def negative (x : Binary64) : Bool := 0x8000000000000000 ≤ x.bits.toNat

/-- The exponent field. -/
def exponentField (x : Binary64) : Nat := x.bits.toNat / fractionCount % 0x800

/-- The fraction field. -/
def fraction (x : Binary64) : Nat := x.bits.toNat % fractionCount

/-- The integer significand of the magnitude. -/
def significand (x : Binary64) : Nat :=
  if x.exponentField = 0 then x.fraction else fractionCount + x.fraction

/-- The power of two the significand is scaled by. -/
def exponent (x : Binary64) : Int :=
  if x.exponentField = 0 then -1074 else (x.exponentField : Int) - 1075

/-- Is the gap to the next smaller magnitude only half of the gap to the next larger one? So it is
at a power of two, except at the bottom of the range, where the spacing stays the same. -/
def gapHalves (x : Binary64) : Bool := x.fraction = 0 && 1 < x.exponentField

/-! ### Values -/

/-- Do the two patterns stand for the same value? Equal patterns do, and so do the two zeros. -/
def sameValue (x y : Binary64) : Bool :=
  x = y || (x.significand = 0 && y.significand = 0)

end Binary64

end UrlRouting
