import UrlRouting.Regex.Expr

/-!
# What a tree of syntax means

A tree is read from the left to the right under the flags in force, and every node of it becomes an
expression. Rows and alternatives are binary in the tree, but have to be simplified as a whole; so
while they are read they are kept as lists (`UrlRouting.Regex.Series`).

A change of flags lasts to the end of its group, across alternatives.
-/

namespace UrlRouting

namespace Regex

/-- Expressions that belong together, the last one first. -/
inductive Series where
  /-- One after the other. -/
  | row (es : List Expr)
  /-- One or the other. -/
  | choice (es : List Expr)

namespace Series

/-- One expression by itself. -/
def single (e : Expr) : Series := .row [e]

/-- The expression that the series is. -/
def expr : Series → Expr
  | .row es => Expr.row es.reverse
  | .choice es => Expr.choice es.reverse

/-- Adds an expression that follows. -/
def followedBy (s : Series) (e : Expr) : Series :=
  match s with
  | .row es => .row (e :: es)
  | .choice _ => .row [e, s.expr]

/-- Adds an alternative. -/
def or (s : Series) (e : Expr) : Series :=
  match s with
  | .choice es => .choice (e :: es)
  | .row _ => .choice [e, s.expr]

end Series

/-- The characters the dot stands for. -/
def dot (flags : Flags) : CharSet :=
  if flags.dotAll then .compl .nothing else .compl (.single '\n')

namespace Syntax

/-- What a tree means under the given flags, and the flags in force behind it. -/
def meaning : Syntax → Flags → Series × Flags
  | .empty, given => (.single .empty, given)
  | .char c, given => (.single (.ofSet ((CharSet.single c).foldedIf given.ignoreCase)), given)
  | .any, given => (.single (.ofSet (dot given)), given)
  | .class_ s, given => (.single (.ofSet (s.set given.ignoreCase)), given)
  | .caret, given => (.single (.look (if given.multiLine then .lineStart else .textStart)), given)
  | .dollar, given => (.single (.look (if given.multiLine then .lineEnd else .textEnd)), given)
  | .look l, given => (.single (.look l), given)
  | .flags change, given => (.single .empty, given.change change)
  | .group (.capture name) body, given =>
    (.single (.capture name (body.meaning given).1.expr), given)
  | .group (.plain change) body, given =>
    (.single (body.meaning (given.change change)).1.expr, given)
  | .repetition body bounds greedy, given =>
    (.single (.repeated (greedy != given.swapGreed) (body.meaning given).1.expr bounds), given)
  | .seq items last, given =>
    let (first, given) := items.meaning given
    let (second, given) := last.meaning given
    (first.followedBy second.expr, given)
  | .alt branches last, given =>
    let (first, given) := branches.meaning given
    let (second, given) := last.meaning given
    (first.or second.expr, given)

/-- The expression that a tree means. -/
def expr (s : Syntax) : Expr := (s.meaning {}).1.expr

end Syntax

end Regex

end UrlRouting
