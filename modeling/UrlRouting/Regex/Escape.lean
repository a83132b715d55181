import UrlRouting.Regex.CharSet

/-!
# Escapes

What a backslash makes of the characters behind it, in and out of brackets.

| text | meaning |
|---|---|
| `\.` and every other ASCII punctuation mark but `<` and `>` | the character itself |
| `\a \f \t \n \r \v` | a control character |
| `\xHH \uHHHH \UHHHHHHHH`, or braces around any digits | the character with that code point |
| `\d \s \w`, capital for the complement | a Unicode property |
| `\A \z \b \B \< \>`, `\b{start}` and its kin | a place between characters |

Anything else is no escape: digits, which would refer back to a group, other letters, and
characters outside ASCII. Going the other way, `UrlRouting.Regex.escape` writes a text so that it
stands for itself.
-/

namespace UrlRouting

namespace Regex

/-! ### Places between characters -/

/-- A condition on a place between two characters. -/
inductive Look where
  /-- The start of the text. -/
  | textStart
  /-- The end of the text. -/
  | textEnd
  /-- The start of the text or of a line in it. -/
  | lineStart
  /-- The end of the text or of a line in it. -/
  | lineEnd
  /-- Between a word character and none. -/
  | wordBoundary
  /-- Not between a word character and none. -/
  | noWordBoundary
  /-- No word character in front, one behind. -/
  | wordStart
  /-- A word character in front, none behind. -/
  | wordEnd
  /-- No word character in front. -/
  | wordStartHalf
  /-- No word character behind. -/
  | wordEndHalf
  deriving DecidableEq, Repr

/-- Does the condition hold between the character in front and the rest of the text? -/
def Look.holds (look : Look) (before : Option Char) (rest : List Char) : Bool :=
  let front := before.any Text.isWord
  let back := rest.head?.any Text.isWord
  match look with
  | .textStart => before.isNone
  | .textEnd => rest.isEmpty
  | .lineStart => before.isNone || before == some '\n'
  | .lineEnd => rest.isEmpty || rest.head? == some '\n'
  | .wordBoundary => front != back
  | .noWordBoundary => front == back
  | .wordStart => !front && back
  | .wordEnd => front && !back
  | .wordStartHalf => !front
  | .wordEndHalf => !back

/-! ### Reading an escape -/

/-- A Unicode property with an escape of its own. -/
inductive Property where
  /-- Decimal digits. -/
  | digit
  /-- White space. -/
  | space
  /-- Word characters. -/
  | word
  deriving DecidableEq, Repr

/-- The characters with the property. -/
def Property.set : Property → CharSet
  | .digit => .digit
  | .space => .space
  | .word => .word

/-- The meaning of an escape. -/
inductive Escape where
  /-- A character. -/
  | char (c : Char)
  /-- The characters with a property, or without it. -/
  | property (p : Property) (negated : Bool)
  /-- A place between characters. -/
  | look (l : Look)
  deriving DecidableEq, Repr

/-- Does the character have a meaning of its own in a regular expression? -/
def isMeta (c : Char) : Bool :=
  ['\\', '.', '+', '*', '?', '(', ')', '|', '[', ']', '{', '}', '^', '$', '#', '&', '-',
    '~'].contains c

/-- May the character stand behind a backslash for itself? ASCII letters, digits and angle brackets
may not. -/
def isEscapable (c : Char) : Bool := c.toNat < 128 && !c.isAlphanum && c != '<' && c != '>'

/-- The value of a hexadecimal digit. -/
def hexValue? (c : Char) : Option Nat :=
  if '0' ≤ c ∧ c ≤ '9' then some (c.toNat - '0'.toNat)
  else if 'a' ≤ c ∧ c ≤ 'f' then some (c.toNat - 'a'.toNat + 10)
  else if 'A' ≤ c ∧ c ≤ 'F' then some (c.toNat - 'A'.toNat + 10)
  else none

/-- The number written by hexadecimal digits. -/
def hexNumber? (digits : List Char) : Option Nat :=
  digits.foldlM (fun n c => (hexValue? c).map (16 * n + ·)) 0

/-- The character with the given code point; surrogates and numbers above the last code point have
none. -/
def charOfCode? (n : Nat) : Option Char := if n.isValidChar then some (Char.ofNat n) else none

/-- Reads a code point: a fixed number of digits, or any positive number of them in braces. -/
def readCode? (width : Nat) : List Char → Option (Char × List Char)
  | '{' :: rest =>
    let digits := rest.takeWhile (· != '}')
    match rest.dropWhile (· != '}') with
    | _ :: behind =>
      if digits.isEmpty then none
      else (hexNumber? digits).bind charOfCode? |>.map (·, behind)
    | [] => none
  | cs =>
    let digits := cs.take width
    if digits.length = width then
      (hexNumber? digits).bind charOfCode? |>.map (·, cs.drop width)
    else none

/-- May the character be part of the name of a word boundary? -/
def isBoundaryNameChar (c : Char) : Bool := c.isAlpha || c == '-'

/-- Reads what follows `\b`: the name of a special boundary in braces, or nothing. Braces that do
not begin with a letter or a dash are left for a repetition. -/
def readBoundary? : List Char → Option (Look × List Char)
  | '{' :: c :: rest =>
    if isBoundaryNameChar c then
      let name := (c :: rest).takeWhile isBoundaryNameChar
      match (c :: rest).dropWhile isBoundaryNameChar with
      | '}' :: behind =>
        if name = "start".toList then some (.wordStart, behind)
        else if name = "end".toList then some (.wordEnd, behind)
        else if name = "start-half".toList then some (.wordStartHalf, behind)
        else if name = "end-half".toList then some (.wordEndHalf, behind)
        else none
      | _ => none
    else some (.wordBoundary, '{' :: c :: rest)
  | ['{'] => none
  | cs => some (.wordBoundary, cs)

/-- Reads the escape behind a backslash. -/
def Escape.read? : List Char → Option (Escape × List Char)
  | [] => none
  | c :: rest =>
    if isEscapable c then some (.char c, rest)
    else match c with
      | 'a' => some (.char '\x07', rest)
      | 'f' => some (.char '\x0c', rest)
      | 't' => some (.char '\t', rest)
      | 'n' => some (.char '\n', rest)
      | 'r' => some (.char '\r', rest)
      | 'v' => some (.char '\x0b', rest)
      | 'x' => (readCode? 2 rest).map fun r => (.char r.1, r.2)
      | 'u' => (readCode? 4 rest).map fun r => (.char r.1, r.2)
      | 'U' => (readCode? 8 rest).map fun r => (.char r.1, r.2)
      | 'd' => some (.property .digit false, rest)
      | 'D' => some (.property .digit true, rest)
      | 's' => some (.property .space false, rest)
      | 'S' => some (.property .space true, rest)
      | 'w' => some (.property .word false, rest)
      | 'W' => some (.property .word true, rest)
      | 'A' => some (.look .textStart, rest)
      | 'z' => some (.look .textEnd, rest)
      | 'B' => some (.look .noWordBoundary, rest)
      | '<' => some (.look .wordStart, rest)
      | '>' => some (.look .wordEnd, rest)
      | 'b' => (readBoundary? rest).map fun r => (.look r.1, r.2)
      | _ => none

/-! ### Writing -/

/-- One character, behind a backslash if it has a meaning of its own. -/
def escapeChar (c : Char) : List Char := if isMeta c then ['\\', c] else [c]

/-- The regular expression that stands for exactly the text. -/
def escape (text : String) : String := String.ofList (text.toList.flatMap escapeChar)

end Regex

end UrlRouting
