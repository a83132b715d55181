/-!
# Patterns of parameters

The validator of a parameter becomes a part of the expression of the whole schema. Two things are
done to its text for that. Its groups stop capturing (`UrlRouting.Pattern.uncapture`), so that
the captures of the schema are those of its parameters; and a greedy repetition at its very end
becomes lazy, so that a parameter reads no more than it has to.

Both are done to the text, which need not be a regular expression. The scan keeps count of the
brackets that are open, since parentheses inside a class are plain, and passes over escaped
characters. The validator `*` stands for one character or more, the path delimiter included.
-/

namespace UrlRouting

namespace Pattern

/-- The pattern of a parameter of which nothing is said. -/
def default : String := "[^/]+"

/-- The validator of a parameter that may span the path delimiter. -/
def spanning : String := "*"

/-- The pattern of a parameter that may span the path delimiter. -/
def spanningPattern : String := ".+?"

/-! ### Groups -/

/-- What follows an opening parenthesis. -/
inductive Opener where
  /-- A group that captures without a name. -/
  | unnamed
  /-- A group that captures under a name. -/
  | named
  /-- Something else, or a name that does not end. -/
  | other
  deriving DecidableEq, Repr

/-- What the text behind an opening parenthesis makes of it. -/
def Opener.ofText : List Char → Opener
  | '?' :: 'P' :: '<' :: rest => if '>' ∈ rest then .named else .other
  | '?' :: '<' :: c :: rest => if c ≠ '=' ∧ c ≠ '!' ∧ '>' ∈ c :: rest then .named else .other
  | '?' :: _ => .other
  | _ => .unnamed

/-- What the scan is inside of. -/
inductive Scan where
  /-- So many open brackets. -/
  | brackets (depth : Nat)
  /-- The name of a group, which is left out up to its angle bracket. -/
  | name
  deriving DecidableEq, Repr

/-- The text with groups that do not capture. -/
def uncaptureFrom : Scan → List Char → List Char
  | _, [] => []
  | .name, c :: rest =>
    if c = '>' then uncaptureFrom (.brackets 0) rest else uncaptureFrom .name rest
  | .brackets depth, c :: rest =>
    if c = '\\' then
      match rest with
      | [] => [c]
      | d :: rest => c :: d :: uncaptureFrom (.brackets depth) rest
    else if c = '[' then
      -- a closing bracket right behind the opening one, or behind its negation, is plain
      match rest with
      | '^' :: ']' :: rest => c :: '^' :: ']' :: uncaptureFrom (.brackets (depth + 1)) rest
      | '^' :: rest => c :: '^' :: uncaptureFrom (.brackets (depth + 1)) rest
      | ']' :: rest => c :: ']' :: uncaptureFrom (.brackets (depth + 1)) rest
      | rest => c :: uncaptureFrom (.brackets (depth + 1)) rest
    else if c = ']' then c :: uncaptureFrom (.brackets (depth - 1)) rest
    else if c = '(' ∧ depth = 0 then
      match Opener.ofText rest with
      | .unnamed => '(' :: '?' :: ':' :: uncaptureFrom (.brackets depth) rest
      | .named => '(' :: '?' :: ':' :: uncaptureFrom .name rest
      | .other => c :: uncaptureFrom (.brackets depth) rest
    else c :: uncaptureFrom (.brackets depth) rest

/-- The text of a regular expression with groups that do not capture. -/
def uncapture (raw : String) : String := String.ofList (uncaptureFrom (.brackets 0) raw.toList)

/-! ### The repetition at the end -/

/-- Does the text end with a repetition, that is, with a plus sign or an asterisk that is neither
alone nor behind an odd number of backslashes? -/
def endsGreedy (text : List Char) : Bool :=
  match text.reverse with
  | [] => false
  | last :: front =>
    (last == '+' || last == '*') && !front.isEmpty &&
      (front.takeWhile (· == '\\')).length % 2 == 0

/-- The pattern of a parameter with the given validator. -/
def ofValidator (raw : String) : String :=
  if raw = spanning then spanningPattern
  else
    let text := uncapture raw
    if endsGreedy text.toList then text ++ "?" else text

end Pattern

end UrlRouting
