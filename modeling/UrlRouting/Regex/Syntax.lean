import UrlRouting.Regex.Token

/-!
# The syntax of a regular expression

Tokens become a tree. The groups that are open around a place are a stack, and each token changes
only the innermost of them: it adds an item, starts another alternative, repeats the last item,
opens a group or closes one. So a text that is an expression by itself is read the same way inside
any group, and a parenthesis that closes nothing is an error rather than a character.

A tree is only the syntax of an expression if no two of its groups have the same name and it does
not nest too deeply (`UrlRouting.Regex.Syntax.isProper`).
-/

namespace UrlRouting

namespace Regex

/-! ### Trees -/

/-- The syntax of a regular expression. -/
inductive Syntax where
  /-- Nothing. -/
  | empty
  /-- A character that stands for itself. -/
  | char (c : Char)
  /-- The dot. -/
  | any
  /-- A class of characters. -/
  | class_ (s : ClassSet)
  /-- `^`. -/
  | caret
  /-- `$`. -/
  | dollar
  /-- Another condition on a place between characters. -/
  | look (l : Look)
  /-- A change of flags up to the end of the group. -/
  | flags (c : FlagChange)
  /-- A group. -/
  | group (kind : GroupKind) (body : Syntax)
  /-- A repetition. -/
  | repetition (body : Syntax) (bounds : Bounds) (greedy : Bool)
  /-- Items in a row: some, then one more. -/
  | seq (items last : Syntax)
  /-- Alternatives: some, then one more. -/
  | alt (branches last : Syntax)
  deriving DecidableEq, Repr

namespace Syntax

/-- The row of the items read so far, the last one first. -/
def ofItems : List Syntax → Syntax
  | [] => .empty
  | [item] => item
  | item :: rest => .seq (ofItems rest) item

/-- The alternatives read so far, the last one first. -/
def ofBranches : List Syntax → Syntax
  | [] => .empty
  | [branch] => branch
  | branch :: rest => .alt (ofBranches rest) branch

/-! ### Reading -/

/-- What has been read at one level: the alternatives that are complete, and the items of the
current one; the last ones first. -/
structure Level where
  /-- The complete alternatives. -/
  branches : List Syntax
  /-- The items of the current alternative. -/
  items : List Syntax
  deriving DecidableEq, Repr

/-- A level at which nothing has been read. -/
def Level.start : Level := ⟨[], []⟩

/-- Adds an item. -/
def Level.push (l : Level) (item : Syntax) : Level := { l with items := item :: l.items }

/-- Begins another alternative. -/
def Level.bar (l : Level) : Level := ⟨ofItems l.items :: l.branches, []⟩

/-- Repeats the last item, if there is one that can be repeated. -/
def Level.repeat? (l : Level) (bounds : Bounds) (greedy : Bool) : Option Level :=
  match l.items with
  | [] => none
  | .flags _ :: _ => none
  | item :: rest => some { l with items := .repetition item bounds greedy :: rest }

/-- The tree of a level. -/
def Level.tree (l : Level) : Syntax := ofBranches (ofItems l.items :: l.branches)

/-- The innermost level, and the groups around it: the kind of each, and the level it stands in. -/
structure Place where
  /-- The innermost level. -/
  level : Level
  /-- The open groups, the innermost one first. -/
  around : List (GroupKind × Level)
  deriving DecidableEq, Repr

/-- Adds an item at the innermost level. -/
def Place.push (p : Place) (item : Syntax) : Place := { p with level := p.level.push item }

/-- Reads one token. -/
def Place.read? (p : Place) : Token → Option Place
  | .char c => some (p.push (.char c))
  | .any => some (p.push .any)
  | .class_ s => some (p.push (.class_ s))
  | .caret => some (p.push .caret)
  | .dollar => some (p.push .dollar)
  | .look l => some (p.push (.look l))
  | .flags c => some (p.push (.flags c))
  | .opening kind => some ⟨.start, (kind, p.level) :: p.around⟩
  | .closing =>
    match p.around with
    | [] => none
    | (kind, outer) :: further => some ⟨outer.push (.group kind p.level.tree), further⟩
  | .bar => some { p with level := p.level.bar }
  | .repetition bounds greedy =>
    (p.level.repeat? bounds greedy).map fun level => { p with level := level }

/-- Reads tokens one after the other. -/
def Place.readAll? (p : Place) (tokens : List Token) : Option Place := tokens.foldlM Place.read? p

/-- The tree of a list of tokens in which every group is closed. -/
def ofTokens? (tokens : List Token) : Option Syntax :=
  match Place.readAll? ⟨.start, []⟩ tokens with
  | some ⟨level, []⟩ => some level.tree
  | _ => none

/-- Reads a text, within no limits. -/
def read? (text : String) : Option Syntax := (Token.ofText? text).bind ofTokens?

/-! ### Limits -/

/-- The names of the groups. -/
def names : Syntax → List String
  | .group (.capture (some name)) body => name :: body.names
  | .group _ body => body.names
  | .repetition body _ _ => body.names
  | .seq items last => items.names ++ last.names
  | .alt branches last => branches.names ++ last.names
  | _ => []

/-- What a tree is inside of, for the counting of its depth: a row of items and the alternatives
are counted once each, however many they are. -/
inductive Within where
  /-- Neither. -/
  | neither
  /-- A row of items. -/
  | row
  /-- Alternatives. -/
  | branches
  deriving DecidableEq, Repr

/-- How deep the tree nests: groups, repetitions, brackets, rows of two or more items and two or
more alternatives count one each. -/
def depthWithin : Syntax → Within → Nat
  | .class_ s, _ => s.depth
  | .group _ body, _ => 1 + body.depthWithin .neither
  | .repetition body _ _, _ => 1 + body.depthWithin .neither
  | .seq items last, w =>
    (if w = .row then 0 else 1) + max (items.depthWithin .row) (last.depthWithin .neither)
  | .alt branches last, w =>
    (if w = .branches then 0 else 1) +
      max (branches.depthWithin .branches) (last.depthWithin .neither)
  | _, _ => 0

/-- How deep the tree nests. -/
def depth (s : Syntax) : Nat := s.depthWithin .neither

/-- The deepest nesting that is allowed. -/
def depthLimit : Nat := 250

/-- Are the names of the groups distinct, and does the tree not nest too deeply? -/
def isProper (s : Syntax) : Bool := s.names.Nodup && s.depth ≤ depthLimit

/-- The syntax of a text, if it is a regular expression. -/
def ofText? (text : String) : Option Syntax := (read? text).filter isProper

end Syntax

end Regex

end UrlRouting
