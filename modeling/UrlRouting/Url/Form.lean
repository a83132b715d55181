import UrlRouting.Url.Fill

/-!
# Query strings

What no schema has used up goes into the query of a url, form-encoded: names and values of pairs
with an equals sign between them, the pairs with an ampersand. Lists and objects become several
pairs, whose names end in the index or the field in brackets, level by level; null becomes none.

Encoding goes byte by byte through the UTF-8 of a text. ASCII letters and digits and `*`, `-`, `.`,
`_` stay, a blank becomes a plus sign, and any other byte becomes a percent sign and two hexadecimal
digits, capitals.
-/

namespace UrlRouting

namespace Form

/-! ### Encoding -/

/-- Does the byte stand for itself? -/
def isPlain (b : UInt8) : Bool :=
  let c := Char.ofNat b.toNat
  b < 128 && (c.isAlphanum || c == '*' || c == '-' || c == '.' || c == '_')

/-- A hexadecimal digit, as a capital. -/
def hexDigit (n : Nat) : Char := (Nat.digitChar n).toUpper

/-- The encoding of a byte. -/
def encodeByte (b : UInt8) : List Char :=
  if isPlain b then [Char.ofNat b.toNat]
  else if b = 0x20 then ['+']
  else ['%', hexDigit (b.toNat / 16), hexDigit (b.toNat % 16)]

/-- The encoding of a text. -/
def encodeText (s : String) : List Char :=
  (s.toList.flatMap String.utf8EncodeChar).flatMap encodeByte

/-- The encoding of a pair. -/
def encodePair (pair : String × String) : List Char :=
  encodeText pair.1 ++ '=' :: encodeText pair.2

/-- The encoding of pairs. -/
def encode (pairs : List (String × String)) : String :=
  String.ofList (['&'].intercalate (pairs.map encodePair))

/-! ### From values to pairs -/

mutual

/-- The pairs of a value under a name. What is neither a list nor an object has the text that it has
in a path. -/
def pairs (name : String) : Value → Except RouterError (List (String × String))
  | .null => .ok []
  | .arr items => itemPairs name 0 items
  | .obj fields => fieldPairs name fields
  | scalar => (scalar.urlText name).map fun text => [(name, text)]

/-- The pairs of list items, numbered on from an index. -/
def itemPairs (name : String) (index : Nat) :
    List Value → Except RouterError (List (String × String))
  | [] => .ok []
  | v :: rest => do
    let own ← pairs (name ++ "[" ++ toString index ++ "]") v
    let others ← itemPairs name (index + 1) rest
    return own ++ others

/-- The pairs of fields. -/
def fieldPairs (name : String) :
    List (String × Value) → Except RouterError (List (String × String))
  | [] => .ok []
  | (field, v) :: rest => do
    let own ← pairs (name ++ "[" ++ field ++ "]") v
    let others ← fieldPairs name rest
    return own ++ others

end

/-- The pairs of parameters. -/
def paramPairs (params : Params) : Except RouterError (List (String × String)) :=
  (params.entries.mapM fun e => pairs e.1 e.2).map List.flatten

/-- The query string of parameters. -/
def query (params : Params) : Except RouterError String := (paramPairs params).map encode

end Form

end UrlRouting
