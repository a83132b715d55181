import UrlRouting.Text.Ranges

/-!
# Sets of characters, byte by byte

An automaton reads a text byte by byte in UTF-8, so a set of characters is to it a set of sequences
of one to four bytes. Such a set is written in *rows*: a row is a range for each byte, and stands
for all sequences with each byte in its range (`UrlRouting.Regex.ByteRow`).

A range of code points falls into parts whose encodings are equally long. The code points of a part
are numbers whose digits are the bytes, the first digit to any base and the others to base 64. Where
the first digits of both ends differ, there is a row for all numbers whose first digit lies between
them, and the rows for those that share it with one of the ends come in front and behind
(`UrlRouting.Regex.digitRows`). Rows ascend, and two rows begin with the same range or with ranges
that have no byte in common.
-/

namespace UrlRouting

namespace Regex

/-- Bytes from one up to another, both included. -/
abbrev ByteRange := Nat × Nat

/-- A range for each byte of a sequence. -/
abbrev ByteRow := List ByteRange

/-- The rows of digits for the numbers from `lo` to `hi`, the weights of all digits but the last one
being given. -/
def digitRows : (weights : List Nat) → (lo hi : Nat) → List (List (Nat × Nat))
  | [], lo, hi => [[(lo, hi)]]
  | w :: ws, lo, hi =>
    if lo / w = hi / w then (digitRows ws (lo % w) (hi % w)).map ((lo / w, lo / w) :: ·)
    else
      let first := if lo % w = 0 then lo / w else lo / w + 1
      let last := if hi % w + 1 = w then hi / w + 1 else hi / w
      (if lo % w = 0 then []
        else (digitRows ws (lo % w) (w - 1)).map ((lo / w, lo / w) :: ·)) ++
      (if first < last then [(first, last - 1) :: List.replicate (ws.length + 1) (0, 63)]
        else []) ++
      (if hi % w + 1 = w then []
        else (digitRows ws 0 (hi % w)).map ((hi / w, hi / w) :: ·))

/-- Code points whose encodings are equally long. -/
structure EncodedLength where
  /-- The first code point. -/
  first : Nat
  /-- The last code point. -/
  last : Nat
  /-- What is added to the first digit to make it a byte. -/
  lead : Nat
  /-- The weights of the digits but the last one. -/
  weights : List Nat

/-- The lengths an encoding may have. -/
def encodedLengths : List EncodedLength :=
  [⟨0, 0x7F, 0, []⟩, ⟨0x80, 0x7FF, 0xC0, [0x40]⟩, ⟨0x800, 0xFFFF, 0xE0, [0x1000, 0x40]⟩,
   ⟨0x10000, 0x10FFFF, 0xF0, [0x40000, 0x1000, 0x40]⟩]

/-- The bytes of digits: all but the first are marked as continuing. -/
def toBytes (lead : Nat) : List (Nat × Nat) → ByteRow
  | [] => []
  | (lo, hi) :: rest => (lead + lo, lead + hi) :: rest.map fun r => (0x80 + r.1, 0x80 + r.2)

/-- The rows of a range of code points. -/
def byteRowsOfRange (lo hi : Nat) : List ByteRow :=
  encodedLengths.flatMap fun l =>
    if max lo l.first ≤ min hi l.last then
      (digitRows l.weights (max lo l.first) (min hi l.last)).map (toBytes l.lead)
    else []

/-- The rows of a set. -/
def byteRows (r : Text.Ranges) : List ByteRow :=
  r.flatMap fun range => byteRowsOfRange range.1 range.2

end Regex

end UrlRouting
