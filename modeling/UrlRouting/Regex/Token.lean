import UrlRouting.Regex.ClassSet

/-!
# The tokens of a regular expression

The text of a regular expression is first cut into tokens, each the longest its place allows: a
character, a class, a place between characters, the opening of a group with all it says about the
group, a repetition with its bounds and its laziness. Nothing here looks at how groups nest; that is
`UrlRouting.Regex.Syntax`.

A closing bracket or brace that closes nothing is a plain character, whereas an opening brace always
begins a repetition. White space is allowed around the numbers of a repetition, but not between its
comma and its brace. Looking ahead and behind, back references, properties by name and the flags
other than `i`, `m`, `s` and `U` are no part of the language. So there is no verbose mode: which
tokens a text has does not depend on the flags in force, and no comment runs on over what is put
behind a text.
-/

namespace UrlRouting

namespace Regex

/-! ### Flags -/

/-- The flags in force at a place of an expression. -/
structure Flags where
  /-- Does case not matter? -/
  ignoreCase : Bool := false
  /-- Do `^` and `$` look at lines? -/
  multiLine : Bool := false
  /-- Does the dot match line feeds too? -/
  dotAll : Bool := false
  /-- Are the greedy and the lazy repetitions exchanged? -/
  swapGreed : Bool := false
  deriving DecidableEq, Repr

/-- A flag. -/
inductive Flag where
  /-- Case does not matter. -/
  | ignoreCase
  /-- `^` and `$` look at lines. -/
  | multiLine
  /-- The dot matches line feeds too. -/
  | dotAll
  /-- Greedy and lazy repetitions are exchanged. -/
  | swapGreed
  deriving DecidableEq, Repr

/-- The flag with the given letter. -/
def Flag.ofChar? : Char → Option Flag
  | 'i' => some .ignoreCase
  | 'm' => some .multiLine
  | 's' => some .dotAll
  | 'U' => some .swapGreed
  | _ => none

/-- Sets or clears a flag. -/
def Flags.put (flags : Flags) (value : Bool) : Flag → Flags
  | .ignoreCase => { flags with ignoreCase := value }
  | .multiLine => { flags with multiLine := value }
  | .dotAll => { flags with dotAll := value }
  | .swapGreed => { flags with swapGreed := value }

/-- What a group says about flags: those it sets, and those it clears. -/
structure FlagChange where
  /-- The flags in front of the dash. -/
  on : List Flag
  /-- The flags behind the dash. -/
  off : List Flag
  deriving DecidableEq, Repr

/-- The flags after a change. -/
def Flags.change (flags : Flags) (c : FlagChange) : Flags :=
  c.off.foldl (Flags.put · false ·) (c.on.foldl (Flags.put · true ·) flags)

/-! ### Tokens -/

/-- What the opening of a group says about it. -/
inductive GroupKind where
  /-- A group that captures, under a name or not. -/
  | capture (name : Option String)
  /-- A group that does not capture, and may change flags. -/
  | plain (change : FlagChange)
  deriving DecidableEq, Repr

/-- How often something is repeated. -/
structure Bounds where
  /-- The least number of times. -/
  least : Nat
  /-- The greatest number of times, if there is one. -/
  most : Option Nat
  deriving DecidableEq, Repr

/-- A token. -/
inductive Token where
  /-- A character that stands for itself. -/
  | char (c : Char)
  /-- The dot. -/
  | any
  /-- A class in brackets, or a property. -/
  | class_ (s : ClassSet)
  /-- `^`. -/
  | caret
  /-- `$`. -/
  | dollar
  /-- Another condition on a place between characters. -/
  | look (l : Look)
  /-- A change of flags up to the end of the group. -/
  | flags (c : FlagChange)
  /-- The opening of a group. -/
  | opening (kind : GroupKind)
  /-- The closing of a group. -/
  | closing
  /-- The bar between alternatives. -/
  | bar
  /-- A repetition of what stands in front. -/
  | repetition (bounds : Bounds) (greedy : Bool)
  deriving DecidableEq, Repr

/-! ### Repetitions -/

/-- The greatest bound a repetition can be written with. -/
def greatestBound : Nat := 0xffffffff

/-- Reads a number with white space around it. -/
def readBound? (cs : List Char) : Option (Nat × List Char) :=
  let cs := cs.dropWhile Text.isBlank
  let digits := cs.takeWhile fun c => '0' ≤ c && c ≤ '9'
  let behind := (cs.dropWhile fun c => '0' ≤ c && c ≤ '9').dropWhile Text.isBlank
  match digits with
  | [] => none
  | _ =>
    let n := digits.foldl (fun n c => 10 * n + (c.toNat - '0'.toNat)) 0
    if n ≤ greatestBound then some (n, behind) else none

/-- Reads the bounds behind an opening brace, up to and including the closing one. -/
def readBounds? (cs : List Char) : Option (Bounds × List Char) :=
  match readBound? cs with
  | some (n, '}' :: behind) => some (⟨n, some n⟩, behind)
  | some (n, ',' :: '}' :: behind) => some (⟨n, none⟩, behind)
  | some (n, ',' :: rest) =>
    match readBound? rest with
    | some (m, '}' :: behind) => if n ≤ m then some (⟨n, some m⟩, behind) else none
    | _ => none
  | _ => none

/-- The repetition with the given bounds; a question mark behind it makes it lazy. -/
def Token.repeated (bounds : Bounds) : List Char → Token × List Char
  | '?' :: rest => (.repetition bounds false, rest)
  | cs => (.repetition bounds true, cs)

/-! ### Openings of groups -/

/-- May a character be part of the name of a group? A name begins with a letter or an underscore. -/
def isNameChar (first : Bool) (c : Char) : Bool :=
  if first then c == '_' || Text.isLetter c
  else c == '_' || c == '.' || c == '[' || c == ']' || Text.isLetter c || Text.isNumeral c

/-- Is the text the name of a group? -/
def isName : List Char → Bool
  | [] => false
  | c :: rest => isNameChar true c && rest.all (isNameChar false)

/-- Reads the name of a group and the angle bracket behind it. -/
def readName? (cs : List Char) : Option (String × List Char) :=
  let name := cs.takeWhile (· != '>')
  match cs.dropWhile (· != '>') with
  | _ :: behind => if isName name then some (String.ofList name, behind) else none
  | [] => none

/-- Reads letters of flags up to a colon or a closing parenthesis, which stays. No flag may be
named twice, and a dash has to be followed by one. -/
def readFlags? (negated : Option Bool) (change : FlagChange) :
    List Char → Option (FlagChange × List Char)
  | [] => none
  | c :: rest =>
    if c = ':' ∨ c = ')' then
      -- `some true` is a dash with no flag behind it so far
      if negated = some true then none else some (change, c :: rest)
    else if c = '-' then
      if negated.isSome then none else readFlags? (some true) change rest
    else match Flag.ofChar? c with
      | none => none
      | some f =>
        if change.on.contains f || change.off.contains f then none
        else if negated.isSome then
          readFlags? (some false) { change with off := change.off ++ [f] } rest
        else readFlags? none { change with on := change.on ++ [f] } rest

/-- Reads what stands behind an opening parenthesis and belongs to it. -/
def readOpening? : List Char → Option (Token × List Char)
  | '?' :: '=' :: _ => none
  | '?' :: '!' :: _ => none
  | '?' :: '<' :: '=' :: _ => none
  | '?' :: '<' :: '!' :: _ => none
  | '?' :: 'P' :: '<' :: rest =>
    (readName? rest).map fun r => (.opening (.capture (some r.1)), r.2)
  | '?' :: '<' :: rest =>
    (readName? rest).map fun r => (.opening (.capture (some r.1)), r.2)
  | '?' :: rest =>
    match readFlags? none ⟨[], []⟩ rest with
    | some (change, ':' :: behind) => some (.opening (.plain change), behind)
    | some (change, ')' :: behind) =>
      if change.on.isEmpty && change.off.isEmpty then none else some (.flags change, behind)
    | _ => none
  | cs => some (.opening (.capture none), cs)

/-! ### Texts -/

/-- Reads one token. -/
def Token.read? : List Char → Option (Token × List Char)
  | [] => none
  | c :: rest => match c with
    | '(' => readOpening? rest
    | ')' => some (.closing, rest)
    | '|' => some (.bar, rest)
    | '[' => (ClassSet.read? rest).map fun r => (.class_ r.1, r.2)
    | '?' => some (Token.repeated ⟨0, some 1⟩ rest)
    | '*' => some (Token.repeated ⟨0, none⟩ rest)
    | '+' => some (Token.repeated ⟨1, none⟩ rest)
    | '{' => (readBounds? rest).map fun r => Token.repeated r.1 r.2
    | '.' => some (.any, rest)
    | '^' => some (.caret, rest)
    | '$' => some (.dollar, rest)
    | '\\' =>
      match Escape.read? rest with
      | some (.char d, behind) => some (.char d, behind)
      | some (.property p negated, behind) => some (.class_ (.property p negated), behind)
      | some (.look l, behind) => some (.look l, behind)
      | none => none
    | _ => some (.char c, rest)

/-- Cuts a text into tokens. Every token reads at least one character, so `fuel` as long as the text
is enough. -/
def Token.readAll? : (fuel : Nat) → List Char → Option (List Token)
  | _, [] => some []
  | 0, _ :: _ => none
  | fuel + 1, c :: cs =>
    match Token.read? (c :: cs) with
    | some (token, rest) => (readAll? fuel rest).map (token :: ·)
    | none => none

/-- The tokens of a text. -/
def Token.ofText? (text : String) : Option (List Token) :=
  Token.readAll? text.toList.length text.toList

end Regex

end UrlRouting
