import UrlRouting.Schema.Basic
import UrlRouting.Schema.Error

/-!
# Reading a schema

A schema is read character by character, with no looking ahead. What has been read is one value,
`UrlRouting.Schema.Reading`: the offset, the row read so far, the segments that are open around it,
and what the reader is in the middle of. So what is wrong with a text is known at the first
character that cannot be right, and no text that begins in the same way is accepted.

A backslash makes the next character plain. In the braces of a parameter, braces nest, so that a
validator may hold repetitions; the first plain `:`, `#` and `|`, in this order, begin the default,
the type and the validator (`UrlRouting.Parameter.ofBody?`). A validator keeps its backslashes.
-/

namespace UrlRouting

/-! ### The inside of braces -/

/-- A character between braces, and whether a backslash stood in front of it. -/
abbrev BodyChar := Char × Bool

/-- Is it one of the given characters, without a backslash in front? -/
def BodyChar.isPlain (marks : List Char) (c : BodyChar) : Bool := !c.2 && marks.contains c.1

/-- The text of characters, backslashes left out. -/
def BodyChar.text (cs : List BodyChar) : String := String.ofList (cs.map (·.1))

/-- The text of characters, backslashes put back. -/
def BodyChar.rawText (cs : List BodyChar) : String :=
  String.ofList (cs.flatMap fun c => if c.2 then ['\\', c.1] else [c.1])

/-- Cuts off what stands behind the given mark, up to the next of some marks. Without the mark
nothing is cut off. -/
def cutPart (mark : Char) (ends : List Char) (cs : List BodyChar) : List BodyChar × List BodyChar :=
  match cs with
  | [] => ([], [])
  | c :: rest =>
    if BodyChar.isPlain [mark] c then
      (rest.takeWhile (!BodyChar.isPlain ends ·), rest.dropWhile (!BodyChar.isPlain ends ·))
    else ([], cs)

/-- A text, unless it is empty. -/
def unlessEmpty (s : String) : Option String := if s.isEmpty then none else some s

/-- The parameter that stands between braces; none if its name is empty. -/
def Parameter.ofBody? (body : List BodyChar) : Option Parameter :=
  let name := body.takeWhile (!BodyChar.isPlain [':', '#', '|'] ·)
  let rest := body.dropWhile (!BodyChar.isPlain [':', '#', '|'] ·)
  let (default, rest) := cutPart ':' ['#', '|'] rest
  let (typeName, rest) := cutPart '#' ['|'] rest
  let (validator, _) := cutPart '|' [] rest
  if name.isEmpty then none
  else some {
    name := BodyChar.text name
    default := unlessEmpty (BodyChar.text default)
    typeName := unlessEmpty (BodyChar.text typeName)
    validator := unlessEmpty (BodyChar.rawText validator)
    optional := false }

namespace Schema

/-! ### What has been read -/

/-- What the reader is in the middle of. -/
inductive Mode where
  /-- Literal text, the last character first; possibly none yet. -/
  | text (pending : List Char)
  /-- A backslash in literal text. -/
  | textEscape (pending : List Char) (index : Nat)
  /-- A parameter: where it began, the braces open in it, and its body, the last character first. -/
  | token (start nested : Nat) (body : List BodyChar)
  /-- A backslash in a parameter. -/
  | tokenEscape (start nested : Nat) (body : List BodyChar) (index : Nat)
  /-- Right behind a parameter, where a question mark may stand. -/
  | behind (p : Parameter)
  deriving DecidableEq, Repr

/-- What has been read of a schema. -/
structure Reading where
  /-- The bytes read. -/
  offset : Nat
  /-- The row read at the innermost level. -/
  row : Schema
  /-- The open segments, the innermost one first: where each begins, and the row in front of it. -/
  around : List (Nat × Schema)
  /-- What the reader is in the middle of. -/
  mode : Mode
  deriving DecidableEq, Repr

/-- Nothing has been read. -/
def Reading.start : Reading := ⟨0, .done, [], .text []⟩

/-- The row with the literal text that has been read behind it. -/
def withLiteral (row : Schema) (pending : List Char) : Schema :=
  match pending with
  | [] => row
  | _ => row.append (.literal (String.ofList pending.reverse) .done)

/-! ### Reading a character -/

/-- Reads a character in literal text. -/
def Reading.readText (r : Reading) (pending : List Char) (c : Char) : Except SchemaFault Reading :=
  let offset := r.offset + c.utf8Size
  if c = '{' then
    .ok { r with offset, row := withLiteral r.row pending, mode := .token r.offset 0 [] }
  else if c = '[' then
    .ok { offset, row := .done, around := (r.offset, withLiteral r.row pending) :: r.around,
          mode := .text [] }
  else if c = ']' then
    match r.around with
    | [] => .error (.unexpectedClosing r.offset c)
    | (_, front) :: around =>
      .ok { offset, row := front.append (.segment (withLiteral r.row pending) .done), around,
            mode := .text [] }
  else if c = '}' then .error (.unexpectedClosing r.offset c)
  else if c = '\\' then .ok { r with offset, mode := .textEscape pending r.offset }
  else .ok { r with offset, mode := .text (c :: pending) }

/-- Reads a character between braces. -/
def Reading.readToken (r : Reading) (start nested : Nat) (body : List BodyChar) (c : Char) :
    Except SchemaFault Reading :=
  let offset := r.offset + c.utf8Size
  if c = '\\' then .ok { r with offset, mode := .tokenEscape start nested body r.offset }
  else if c = '{' then .ok { r with offset, mode := .token start (nested + 1) ((c, false) :: body) }
  else if c = '}' then
    match nested with
    | nested + 1 => .ok { r with offset, mode := .token start nested ((c, false) :: body) }
    | 0 =>
      match Parameter.ofBody? body.reverse with
      | some p => .ok { r with offset, mode := .behind p }
      | none => .error .missingName
  else .ok { r with offset, mode := .token start nested ((c, false) :: body) }

/-- The reading with a parameter behind its row. -/
def Reading.pushParam (r : Reading) (p : Parameter) : Reading :=
  { r with row := r.row.append (.param p .done), mode := .text [] }

/-- Reads one character. -/
def Reading.read (r : Reading) (c : Char) : Except SchemaFault Reading :=
  match r.mode with
  | .text pending => r.readText pending c
  | .textEscape pending _ =>
    .ok { r with offset := r.offset + c.utf8Size, mode := .text (c :: pending) }
  | .token start nested body => r.readToken start nested body c
  | .tokenEscape start nested body _ =>
    .ok { r with offset := r.offset + c.utf8Size, mode := .token start nested ((c, true) :: body) }
  | .behind p =>
    if c = '?' then
      .ok { r.pushParam { p with optional := true } with offset := r.offset + c.utf8Size }
    else (r.pushParam p).readText [] c

/-- The row read by the end of the innermost level, if nothing is missing. -/
def Reading.finish (r : Reading) : Except SchemaFault Schema :=
  let close (row : Schema) : Except SchemaFault Schema :=
    match r.around with
    | [] => .ok row
    | (start, _) :: _ => .error (.unterminatedSegment start)
  match r.mode with
  | .text pending => close (withLiteral r.row pending)
  | .textEscape _ index => .error (.loneEscape index)
  | .token start _ _ => .error (.unterminatedParameter start)
  | .tokenEscape _ _ _ index => .error (.loneEscape index)
  | .behind p => close (r.pushParam p).row

/-- Reads characters, one after the other, to the end. -/
def Reading.readAll (r : Reading) (cs : List Char) : Except SchemaFault Schema := do
  (← cs.foldlM Reading.read r).finish

/-! ### Reading a text -/

/-- The schema of a text. -/
def ofText (text : String) : Except SchemaError Schema :=
  match Reading.start.readAll text.toList with
  | .ok schema => .ok schema
  | .error fault => .error ⟨text, fault⟩

end Schema

end UrlRouting
