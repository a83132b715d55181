/-!
# Decimal texts of integers

Reading an integer from its decimal text. The text is an optional sign, `+` or `-`, and at least one
ASCII digit; leading zeros are allowed and nothing else is. Writing goes the other way with
`toString`, which gives the canonical text: no `+`, no leading zero, no `-0`.

The two ranges at the end are those of the integers a parameter can hold: `-2^63` up to `2^63 - 1`
for signed ones, `0` up to `2^64 - 1` for unsigned ones.
-/

namespace UrlRouting

namespace Decimal

/-! ### Reading -/

/-- The value of an ASCII digit. -/
def digitValue? (c : Char) : Option Nat :=
  if '0' ≤ c ∧ c ≤ '9' then some (c.toNat - '0'.toNat) else none

/-- Reads the remaining digits behind a number already read; any other character fails. -/
def readDigits? : Nat → List Char → Option Nat
  | n, [] => some n
  | n, c :: rest =>
    match digitValue? c with
    | some d => readDigits? (10 * n + d) rest
    | none => none

/-- Reads a natural number: one digit or more. -/
def readNat? : List Char → Option Nat
  | [] => none
  | c :: rest => readDigits? 0 (c :: rest)

/-- Reads an integer: a natural number with an optional sign. -/
def readInt? (s : String) : Option Int :=
  match s.toList with
  | '-' :: rest => (readNat? rest).map fun n => -(n : Int)
  | '+' :: rest => (readNat? rest).map Int.ofNat
  | cs => (readNat? cs).map Int.ofNat

/-! ### Ranges -/

/-- Is the integer in the signed range of 64 bits? -/
def isSigned64 (n : Int) : Bool := -0x8000000000000000 ≤ n && n < 0x8000000000000000

/-- Is the integer in the unsigned range of 64 bits? -/
def isUnsigned64 (n : Int) : Bool := 0 ≤ n && n < 0x10000000000000000

end Decimal

end UrlRouting
