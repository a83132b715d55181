import UrlRouting.Decimal.Layout
import UrlRouting.Value.Basic

/-!
# The text of a value

A value is written as compact JSON: no blanks, fields in the order the value keeps them, and
characters outside ASCII as they are. Inside a text the quote, the backslash and the control
characters are escaped, five of the latter by a letter and the others by four lower-case
hexadecimal digits.
-/

namespace UrlRouting

namespace Value

/-! ### Texts in quotes -/

/-- A lower-case hexadecimal digit. -/
def hexDigit (n : Nat) : Char := (Nat.digitChar n)

/-- One character of a text, escaped where JSON asks for it. -/
def escapeChar (c : Char) : List Char :=
  if c = '"' then ['\\', '"']
  else if c = '\\' then ['\\', '\\']
  else if c = '\x08' then ['\\', 'b']
  else if c = '\x0c' then ['\\', 'f']
  else if c = '\n' then ['\\', 'n']
  else if c = '\r' then ['\\', 'r']
  else if c = '\t' then ['\\', 't']
  else if c.toNat < 32 then
    ['\\', 'u', '0', '0', hexDigit (c.toNat / 16), hexDigit (c.toNat % 16)]
  else [c]

/-- A text in quotes. -/
def quote (s : String) : String :=
  String.ofList ('"' :: s.toList.flatMap escapeChar ++ ['"'])

/-! ### Values -/

mutual

/-- Compact JSON. -/
def json : Value → String
  | .null => "null"
  | .bool b => if b then "true" else "false"
  | .int n => toString n
  | .double x => x.text
  | .str s => quote s
  | .arr items => "[" ++ ",".intercalate (jsonItems items) ++ "]"
  | .obj fields => "\x7b" ++ ",".intercalate (jsonFields fields) ++ "\x7d"

/-- The texts of list items. -/
def jsonItems : List Value → List String
  | [] => []
  | v :: rest => json v :: jsonItems rest

/-- The texts of fields: the name in quotes, a colon, the value. -/
def jsonFields : List (String × Value) → List String
  | [] => []
  | (name, v) :: rest => (quote name ++ ":" ++ json v) :: jsonFields rest

end

end Value

end UrlRouting
