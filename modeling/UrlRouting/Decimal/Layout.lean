import UrlRouting.Decimal.Shortest

/-!
# How a decimal is laid out

The digits of a number say nothing about where the point goes or when an exponent takes over. Those
decisions are one value, `UrlRouting.Decimal.Layout`, and `UrlRouting.Decimal.Layout.text` follows
it. The layout of this library's numbers, `UrlRouting.Decimal.plain`, writes at least one digit on
either side of a point, and an exponent with its sign and without padding: `1.0`, `0.00001`, `1e-6`,
`1e+16`, `1.5e+300`, `-0.0`.
-/

namespace UrlRouting

namespace Decimal

/-- When a number is written with a point alone. The *place* of the point counts the digits in
front of it, and goes below zero for zeros behind it. -/
structure Layout where
  /-- The lowest place written without exponent. -/
  lowestPlace : Int
  /-- The highest place written without exponent. -/
  highestPlace : Int
  deriving DecidableEq, Repr

/-- Numbers from `10 ^ -5` up to below `10 ^ 16` are written without exponent. -/
def plain : Layout := ⟨-4, 16⟩

/-- A row of zeros. -/
def zeros (n : Nat) : List Char := List.replicate n '0'

/-- The text of a decimal. -/
def Layout.text (layout : Layout) (x : Scaled) : List Char :=
  let digits := (toString x.digits).toList
  let place := digits.length + x.exponent
  if layout.lowestPlace ≤ place ∧ place ≤ layout.highestPlace then
    if 0 ≤ x.exponent then digits ++ zeros x.exponent.toNat ++ ['.', '0']
    else if 0 < place then digits.take place.toNat ++ '.' :: digits.drop place.toNat
    else ['0', '.'] ++ zeros (-place).toNat ++ digits
  else
    let power := place - 1
    let tail := 'e' :: (if power < 0 then '-' else '+') :: (toString power.natAbs).toList
    match digits with
    | first :: second :: rest => first :: '.' :: second :: rest ++ tail
    | _ => digits ++ tail

end Decimal

/-- The text of a number: the shortest decimal that reads back, behind its sign. -/
def Binary64.text (x : Binary64) : String :=
  let magnitude := Decimal.plain.text x.shortest
  String.ofList (if x.negative then '-' :: magnitude else magnitude)

end UrlRouting
