import UrlRouting.Text.Blank
import UrlRouting.Text.CaseFold
import UrlRouting.Text.Word

/-!
# Sets of characters

What one step of a regular expression reads is a set of characters. However it was written, a set is
kept in the one form that its characters give it, so that `[ab]` and `[ba]` are the same.
-/

namespace UrlRouting

namespace Regex

/-- A set of characters. -/
structure CharSet where
  /-- The code points of the characters: ascending ranges that do not touch. -/
  ranges : Text.Ranges
  deriving DecidableEq, Repr

namespace CharSet

/-- Is the character in the set? -/
def mem (s : CharSet) (c : Char) : Bool := Text.inRanges s.ranges c.toNat

/-! ### Particular sets -/

/-- No character. -/
def nothing : CharSet := ⟨[]⟩

/-- One character. -/
def single (c : Char) : CharSet := ⟨[(c.toNat, c.toNat)]⟩

/-- The characters from one up to another, both included. -/
def range (lo hi : Char) : CharSet :=
  ⟨Text.Ranges.diff [(lo.toNat, hi.toNat)] Text.Ranges.surrogates⟩

/-- Decimal digits of any script. -/
def digit : CharSet := ⟨Text.digitRanges⟩

/-- White space. -/
def space : CharSet := ⟨Text.blankRanges⟩

/-- Word characters. -/
def word : CharSet :=
  ⟨Text.Ranges.union (Text.Ranges.union Text.letterRanges Text.digitRanges) Text.joinerRanges⟩

/-- The character of a set of one character. -/
def single? (s : CharSet) : Option Char :=
  match s.ranges with
  | [(lo, hi)] => if lo = hi then some (Char.ofNat lo) else none
  | _ => none

/-! ### Operations -/

/-- All other characters. -/
def compl (s : CharSet) : CharSet := ⟨Text.Ranges.compl s.ranges⟩

/-- The characters of either set. -/
def union (s t : CharSet) : CharSet := ⟨Text.Ranges.union s.ranges t.ranges⟩

/-- The characters of both sets. -/
def inter (s t : CharSet) : CharSet := ⟨Text.Ranges.inter s.ranges t.ranges⟩

/-- The characters of the first set that the second one lacks. -/
def diff (s t : CharSet) : CharSet := ⟨Text.Ranges.diff s.ranges t.ranges⟩

/-- The characters of exactly one of the sets. -/
def symmDiff (s t : CharSet) : CharSet := ⟨Text.Ranges.symmDiff s.ranges t.ranges⟩

/-- The characters of the set and their case variants. -/
def folded (s : CharSet) : CharSet := ⟨Text.withVariants s.ranges⟩

/-- The set of the listed ranges. -/
def ofRanges (ranges : List (Char × Char)) : CharSet :=
  ranges.foldr (fun r s => union (range r.1 r.2) s) nothing

/-- The characters of any of the sets. -/
def unionAll (sets : List CharSet) : CharSet := sets.foldr union nothing

/-- The set with its case variants, if case is to be ignored. -/
def foldedIf (ignoreCase : Bool) (s : CharSet) : CharSet := if ignoreCase then s.folded else s

/-- The set, or all other characters. -/
def complIf (negated : Bool) (s : CharSet) : CharSet := if negated then s.compl else s

end CharSet

end Regex

end UrlRouting
