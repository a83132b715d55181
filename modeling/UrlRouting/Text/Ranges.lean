/-!
# Sets of code points

Character properties and the classes of regular expressions are sets of code points, kept as
ascending ranges that do not touch each other. In this form two sets are equal only if their ranges
are, and the question whether a code point is in a set is answered from the lowest range upwards and
stops as soon as the ranges lie above it, so that it takes the first few ranges for an ASCII
character.

The operations keep the form: `UrlRouting.Text.Ranges.union` joins ranges that touch, and
`UrlRouting.Text.Ranges.compl` takes what lies between them; the others are made of these two.
Surrogates, the code points of no character, are never in a complement.
-/

namespace UrlRouting

namespace Text

/-- A set of code points: ascending ranges, both ends included. -/
abbrev Ranges := List (Nat × Nat)

/-- Is the code point in one of the ranges? The ranges must ascend. -/
def inRanges : Ranges → Nat → Bool
  | [], _ => false
  | (lo, hi) :: rest, n => if n < lo then false else if n ≤ hi then true else inRanges rest n

namespace Ranges

/-! ### Union -/

/-- A range and those behind it, by ascending start, with ranges that touch joined. -/
def joinFrom (lo hi : Nat) : Ranges → Ranges
  | [] => [(lo, hi)]
  | (lo', hi') :: rest =>
    if lo' ≤ hi + 1 then joinFrom lo (max hi hi') rest else (lo, hi) :: joinFrom lo' hi' rest

/-- Ranges by ascending start, with those that touch joined. -/
def join : Ranges → Ranges
  | [] => []
  | (lo, hi) :: rest => joinFrom lo hi rest

/-- The code points of either set. -/
def union (r s : Ranges) : Ranges := join (List.merge r s fun a b => a.1 ≤ b.1)

/-- The listed code points. -/
def ofCodes (codes : List Nat) : Ranges :=
  join ((codes.mergeSort fun a b => a ≤ b).map fun n => (n, n))

/-! ### Complement -/

/-- The code points of no character. -/
def surrogates : Ranges := [(0xD800, 0xDFFF)]

/-- What lies between ascending ranges, from a code point on to the last one. -/
def gapsFrom (next : Nat) : Ranges → Ranges
  | [] => if next ≤ 0x10FFFF then [(next, 0x10FFFF)] else []
  | (lo, hi) :: rest =>
    if next < lo then (next, lo - 1) :: gapsFrom (hi + 1) rest else gapsFrom (hi + 1) rest

/-- The characters that are not in the set. -/
def compl (r : Ranges) : Ranges := gapsFrom 0 (union surrogates r)

/-! ### Further operations -/

/-- The characters of both sets. -/
def inter (r s : Ranges) : Ranges := compl (union (compl r) (compl s))

/-- The characters of the first set that the second one lacks. -/
def diff (r s : Ranges) : Ranges := inter r (compl s)

/-- The characters of exactly one of the sets. -/
def symmDiff (r s : Ranges) : Ranges := union (diff r s) (diff s r)

end Ranges

end Text

end UrlRouting
