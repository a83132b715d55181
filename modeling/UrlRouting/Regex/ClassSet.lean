import UrlRouting.Regex.Escape

/-!
# Bracketed classes

A class in brackets, `[a-z&&[^aeiou]]`, read into a tree and turned into a set of characters.

Items stand side by side for their union. `&&`, `--` and `~~` are the intersection, the difference
and the symmetric difference of what stands to either side, all three grouping to the left and
binding looser than the union. Some characters mean something only in one place: `^` behind the
bracket negates, any number of `-` behind it are plain, and a `]` right behind it is plain as well.
A `-` between two characters makes a range, unless a `]` or another `-` follows it; the end of a
range may be any character, an opening bracket included. A bracket inside a class opens a nested
class, or one of the named ASCII classes such as `[:alpha:]`.

The tree (`UrlRouting.Regex.ClassSet`) is what the limit on nesting looks at
(`UrlRouting.Regex.ClassSet.depth`); the set (`UrlRouting.Regex.ClassSet.set`) depends on whether
case is ignored.
-/

namespace UrlRouting

namespace Regex

/-! ### The named ASCII classes -/

/-- The ranges of a named ASCII class. -/
def asciiClass? (name : String) : Option (List (Char × Char)) :=
  [("alnum", [('0', '9'), ('A', 'Z'), ('a', 'z')]),
   ("alpha", [('A', 'Z'), ('a', 'z')]),
   ("ascii", [('\x00', '\x7f')]),
   ("blank", [('\t', '\t'), (' ', ' ')]),
   ("cntrl", [('\x00', '\x1f'), ('\x7f', '\x7f')]),
   ("digit", [('0', '9')]),
   ("graph", [('!', '~')]),
   ("lower", [('a', 'z')]),
   ("print", [(' ', '~')]),
   ("punct", [('!', '/'), (':', '@'), ('[', '\x60'), ('{', '~')]),
   ("space", [('\t', '\r'), (' ', ' ')]),
   ("upper", [('A', 'Z')]),
   ("word", [('0', '9'), ('A', 'Z'), ('_', '_'), ('a', 'z')]),
   ("xdigit", [('0', '9'), ('A', 'F'), ('a', 'f')])].lookup name

/-! ### Trees -/

/-- The operators between the parts of a class. -/
inductive SetOp where
  /-- The characters of both sides. -/
  | inter
  /-- The characters of the left side that the right side lacks. -/
  | diff
  /-- The characters of exactly one side. -/
  | symmDiff
  deriving DecidableEq, Repr

/-- What stands in a class. -/
inductive ClassSet where
  /-- No item. -/
  | nothing
  /-- One character. -/
  | char (c : Char)
  /-- A range of characters. -/
  | range (lo hi : Char)
  /-- The characters with a property, or without it. -/
  | property (p : Property) (negated : Bool)
  /-- The listed ranges of ASCII characters, or all other characters. -/
  | ascii (ranges : List (Char × Char)) (negated : Bool)
  /-- Items side by side: some, then one more. -/
  | union (items last : ClassSet)
  /-- Two sides of an operator. -/
  | op (o : SetOp) (left right : ClassSet)
  /-- A class in brackets of its own. -/
  | bracket (negated : Bool) (inner : ClassSet)
  deriving DecidableEq, Repr

namespace ClassSet

/-- The tree of the items read so far, the last one first. -/
def ofItems : List ClassSet → ClassSet
  | [] => .nothing
  | [item] => item
  | item :: rest => .union (ofItems rest) item

/-- The set that the tree describes. Ignoring case adds the case variants to each bracketed class,
before it is negated, and to each side of an operator. -/
def set (ignoreCase : Bool) : ClassSet → CharSet
  | .nothing => .nothing
  | .char c => .single c
  | .range lo hi => .range lo hi
  | .property p negated => p.set.complIf negated
  | .ascii ranges negated => ((CharSet.ofRanges ranges).foldedIf ignoreCase).complIf negated
  | .union items last => (items.set ignoreCase).union (last.set ignoreCase)
  | .op o left right =>
    let l := (left.set ignoreCase).foldedIf ignoreCase
    let r := (right.set ignoreCase).foldedIf ignoreCase
    match o with
    | .inter => l.inter r
    | .diff => l.diff r
    | .symmDiff => l.symmDiff r
  | .bracket negated inner => ((inner.set ignoreCase).foldedIf ignoreCase).complIf negated

mutual

/-- How deep the tree nests: brackets, operators and rows of two or more items count one each. -/
def depth : ClassSet → Nat
  | .union items last => 1 + max items.rowDepth last.depth
  | .op _ left right => 1 + max left.depth right.depth
  | .bracket _ inner => 1 + inner.depth
  | .nothing | .char _ | .range _ _ | .property _ _ | .ascii _ _ => 0

/-- How deep the items of one row nest, the row itself left out. -/
def rowDepth : ClassSet → Nat
  | .union items last => max items.rowDepth last.depth
  | .op _ left right => 1 + max left.depth right.depth
  | .bracket _ inner => 1 + inner.depth
  | .nothing | .char _ | .range _ _ | .property _ _ | .ascii _ _ => 0

end

/-! ### Reading -/

/-- A class that is being read: what its bracket began with, the operator and left side that wait
for their right side, and the items read since, the last one first. -/
structure Open where
  /-- Did a `^` follow the bracket? -/
  negated : Bool
  /-- The operator that waits for its right side. -/
  pending : Option (SetOp × ClassSet)
  /-- The items of the current row, the last one first. -/
  items : List ClassSet

/-- Adds an item to the current row. -/
def Open.push (o : Open) (item : ClassSet) : Open := { o with items := item :: o.items }

/-- The tree read so far. -/
def Open.tree (o : Open) : ClassSet :=
  match o.pending with
  | some (operator, left) => .op operator left (ofItems o.items)
  | none => ofItems o.items

/-- Ends the left side of an operator. -/
def Open.operator (o : Open) (operator : SetOp) : Open :=
  { o with pending := some (operator, o.tree), items := [] }

/-- Reads the plain dashes at the start of a class. -/
def readDashes (o : Open) : List Char → Open × List Char
  | '-' :: rest => readDashes (o.push (.char '-')) rest
  | cs => (o, cs)

/-- Reads the start of a class from behind its negation: plain dashes, a plain closing bracket. -/
def startBehind (negated : Bool) (cs : List Char) : Open × List Char :=
  match readDashes ⟨negated, none, []⟩ cs with
  | (⟨_, _, []⟩, ']' :: rest) => (⟨negated, none, [.char ']']⟩, rest)
  | started => started

/-- Reads the start of a class, from behind its bracket. -/
def readStart : List Char → Open × List Char
  | '^' :: rest => startBehind true rest
  | cs => startBehind false cs

/-- Reads the name of an ASCII class, a colon and a bracket. -/
def readAsciiName? (negated : Bool) (cs : List Char) : Option (ClassSet × List Char) :=
  match cs.dropWhile (· != ':') with
  | ':' :: ']' :: behind =>
    (asciiClass? (String.ofList (cs.takeWhile (· != ':')))).map (.ascii · negated, behind)
  | _ => none

/-- Reads a named ASCII class, from behind its bracket. If none is there, the bracket opens a nested
class instead. -/
def readAscii? : List Char → Option (ClassSet × List Char)
  | ':' :: '^' :: rest => readAsciiName? true rest
  | ':' :: rest => readAsciiName? false rest
  | _ => none

/-- Reads one character or property. -/
def readItem? : List Char → Option (ClassSet × List Char)
  | [] => none
  | '\\' :: rest =>
    match Escape.read? rest with
    | some (.char c, behind) => some (.char c, behind)
    | some (.property p negated, behind) => some (.property p negated, behind)
    | _ => none
  | c :: rest => some (.char c, rest)

/-- Reads one item: a character, a property, or a range. -/
def readRange? (cs : List Char) : Option (ClassSet × List Char) :=
  match readItem? cs with
  | none => none
  | some (first, behind) =>
    match behind with
    | '-' :: ']' :: _ => some (first, behind)
    | '-' :: '-' :: _ => some (first, behind)
    | '-' :: rest =>
      match first, readItem? rest with
      | .char lo, some (.char hi, behind) => if lo ≤ hi then some (.range lo hi, behind) else none
      | _, _ => none
    | _ => some (first, behind)

/-- Reads on in a class, inside those that are open around it. Every turn reads at least one
character, so `fuel` as long as the text is enough. -/
def readOn? : (fuel : Nat) → Open → List Open → List Char → Option (ClassSet × List Char)
  | 0, _, _, _ => none
  | _, _, _, [] => none
  | fuel + 1, o, around, '[' :: rest =>
    match readAscii? rest with
    | some (item, behind) => readOn? fuel (o.push item) around behind
    | none => readOn? fuel (readStart rest).1 (o :: around) (readStart rest).2
  | fuel + 1, o, around, ']' :: rest =>
    match around with
    | [] => some (.bracket o.negated o.tree, rest)
    | outer :: further => readOn? fuel (outer.push (.bracket o.negated o.tree)) further rest
  | fuel + 1, o, around, '&' :: '&' :: rest => readOn? fuel (o.operator .inter) around rest
  | fuel + 1, o, around, '-' :: '-' :: rest => readOn? fuel (o.operator .diff) around rest
  | fuel + 1, o, around, '~' :: '~' :: rest => readOn? fuel (o.operator .symmDiff) around rest
  | fuel + 1, o, around, cs =>
    match readRange? cs with
    | some (item, behind) => readOn? fuel (o.push item) around behind
    | none => none

/-- Reads a class from behind its opening bracket, up to and including the closing one. -/
def read? (cs : List Char) : Option (ClassSet × List Char) :=
  readOn? (cs.length + 1) (readStart cs).1 [] (readStart cs).2

end ClassSet

end Regex

end UrlRouting
