import UrlRouting.Text.Ranges

/-!
# White space

The characters with the Unicode property *White_Space*, what the class `\s` of a regular
expression means, and the texts that hold nothing else. The zero-width space is not among them.
-/

namespace UrlRouting

namespace Text

/-- The code points with the property *White_Space*. -/
def blankRanges : Ranges :=
  [(0x9, 0xD), (0x20, 0x20), (0x85, 0x85), (0xA0, 0xA0), (0x1680, 0x1680), (0x2000, 0x200A),
   (0x2028, 0x2029), (0x202F, 0x202F), (0x205F, 0x205F), (0x3000, 0x3000)]

/-- Is the character white space? -/
def isBlank (c : Char) : Bool := inRanges blankRanges c.toNat

/-- Is a text empty once white space is trimmed off? -/
def isBlankText (s : String) : Bool := s.toList.all isBlank

end Text

end UrlRouting
