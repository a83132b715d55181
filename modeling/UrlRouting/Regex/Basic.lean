import UrlRouting.Regex.Search
import UrlRouting.Regex.Size

/-!
# Compiled regular expressions

The interface of this part of the library: a text is compiled, unless it is no regular expression or
one whose automata would be too large, and a compiled expression is searched for in texts.
`UrlRouting.Regex.anchored` is the expression that has to match a text as a whole.
-/

namespace UrlRouting

/-- A regular expression. -/
structure Regex where
  /-- The text it was compiled from. -/
  source : String
  /-- What it means. -/
  expr : Regex.Expr
  deriving DecidableEq, Repr

namespace Regex

/-- Compiles a text. -/
def compile? (source : String) : Option Regex :=
  (Syntax.ofText? source).bind fun s => if s.expr.fits then some ⟨source, s.expr⟩ else none

/-- The text of the expression that matches whole texts only. -/
def anchored (source : String) : String := "^(?:" ++ source ++ ")$"

/-- Does the expression match somewhere in the text? -/
def isMatch (r : Regex) (text : String) : Bool := (r.expr.find? text).isSome

/-- The captures of the preferred match in the text. -/
def captures? (r : Regex) (text : String) : Option Trail := r.expr.find? text

end Regex

end UrlRouting
