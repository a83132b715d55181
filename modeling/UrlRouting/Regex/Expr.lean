import UrlRouting.Regex.Syntax

/-!
# Regular expressions

What a regular expression means no longer depends on how it was written. Flags are resolved, groups
that do not capture are gone, and every expression has the simplest of the forms that its parts
allow (`UrlRouting.Regex.Expr`).

* Parts in a row are nested to the right. None of them is a row or empty, and characters that stand
  side by side are one word (`UrlRouting.Regex.Expr.row`).
* Alternatives are nested to the right as well. Alternatives that each read one character are a set,
  and what all alternatives begin with is taken out in front of them
  (`UrlRouting.Regex.Expr.choice`).
* What cannot read a character is never repeated more than once
  (`UrlRouting.Regex.Expr.repeated`).

The order of two alternatives matters: the first one is preferred. A repetition that may end or go
on prefers to go on if it is greedy, and to end if it is not.
-/

namespace UrlRouting

namespace Regex

/-- A regular expression. -/
inductive Expr where
  /-- Nothing is read. -/
  | empty
  /-- A text that stands for itself is read. -/
  | word (text : List Char)
  /-- One character of a set is read. -/
  | set (s : CharSet)
  /-- Nothing is read, and a condition on the place holds. -/
  | look (l : Look)
  /-- A group that captures; what it reads is remembered if it has a name. -/
  | capture (name : Option String) (body : Expr)
  /-- One after the other. -/
  | seq (first second : Expr)
  /-- One or the other; the first is preferred. -/
  | alt (first second : Expr)
  /-- At least so many rounds. -/
  | atLeast (greedy : Bool) (least : Nat) (body : Expr)
  /-- So many rounds, and at most so many more. -/
  | between (greedy : Bool) (least more : Nat) (body : Expr)
  deriving DecidableEq, Repr

namespace Expr

/-! ### Parts -/

/-- The parts of a row. -/
def items : Expr → List Expr
  | .empty => []
  | .seq first second => first :: second.items
  | e => [e]

/-- The alternatives. -/
def branches : Expr → List Expr
  | .alt first second => first :: second.branches
  | e => [e]

/-- Does a group in it capture? -/
def captures : Expr → Bool
  | .empty | .word _ | .set _ | .look _ => false
  | .capture _ _ => true
  | .seq first second => first.captures || second.captures
  | .alt first second => first.captures || second.captures
  | .atLeast _ _ body => body.captures
  | .between _ _ _ body => body.captures

/-- Is it certain, from its form, that it never reads a character? -/
def isBlank : Expr → Bool
  | .empty => true
  | .word _ => false
  | .set _ => false
  | .look _ => true
  | .capture _ body => body.isBlank
  | .seq first second => first.isBlank && second.isBlank
  | .alt first second => first.isBlank && second.isBlank
  | .atLeast _ _ body => body.isBlank
  | .between _ _ _ body => body.isBlank

/-! ### Sets -/

/-- The characters of a set; a set of one character is a word. -/
def ofSet (s : CharSet) : Expr :=
  match s.single? with
  | some c => .word [c]
  | none => .set s

/-- The character that the expression stands for. -/
def char? : Expr → Option Char
  | .word [c] => some c
  | _ => none

/-- The set of characters that the expression is, a single character left out. -/
def set? : Expr → Option CharSet
  | .set s => some s
  | _ => none

/-! ### Rows -/

/-- A part in front of a row. -/
def before : Expr → Expr → Expr
  | e, .empty => e
  | .word text, .word more => .word (text ++ more)
  | .word text, .seq (.word more) behind => .seq (.word (text ++ more)) behind
  | e, behind => .seq e behind

/-- Expressions in a row. -/
def row (es : List Expr) : Expr := (es.flatMap items).foldr before .empty

/-! ### Alternatives -/

/-- What two rows begin with alike. Groups that capture are never alike. -/
def sharedItems : List Expr → List Expr → List Expr
  | a :: as, b :: bs => if a = b ∧ !a.captures then a :: sharedItems as bs else []
  | _, _ => []

/-- What all the expressions begin with, if each of them is a row. -/
def sharedStart (es : List Expr) : List Expr :=
  match es.map items with
  | [] => []
  | r :: rs => if (r :: rs).all (2 ≤ ·.length) then rs.foldl sharedItems r else []

/-- The first alternative and the ones behind it, nested to the right. -/
def nested (first : Expr) : List Expr → Expr
  | [] => first
  | second :: rest => .alt first (nested second rest)

/-- Alternatives that are no alternatives themselves and begin with nothing in common. Characters
make a set, and so do sets, but not both together. -/
def anyOf : List Expr → Expr
  | [] => .set .nothing
  | [e] => e
  | e :: es =>
    match (e :: es).mapM char?, (e :: es).mapM set? with
    | some cs, _ => .ofSet (.unionAll (cs.map .single))
    | none, some sets => .ofSet (.unionAll sets)
    | none, none => nested e es

/-- Alternatives. -/
def choice (es : List Expr) : Expr :=
  let es := es.flatMap branches
  match es with
  | [e] => e
  | _ =>
    match sharedStart es with
    | [] => anyOf es
    | start =>
      let behind := es.map fun e => row (e.items.drop start.length)
      row (start ++ [anyOf (behind.flatMap branches)])

/-! ### Repetitions -/

/-- A repetition within bounds. -/
def repeated (greedy : Bool) (e : Expr) (bounds : Bounds) : Expr :=
  match if e.isBlank then ⟨min bounds.least 1, some (min (bounds.most.getD 1) 1)⟩ else bounds with
  | ⟨n, none⟩ => .atLeast greedy n e
  | ⟨0, some 0⟩ => .empty
  | ⟨1, some 1⟩ => e
  | ⟨n, some m⟩ => .between greedy n (m - n) e

end Expr

end Regex

end UrlRouting
