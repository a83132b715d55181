import UrlRouting.Decimal.Integer
import UrlRouting.Value.Basic

/-!
# Parameter types

A parameter may be declared to hold a signed integer, an unsigned one, or a truth value. A type says
which texts it is matched by when nothing more is said (`UrlRouting.ParamType.pattern`), which value
a text stands for (`UrlRouting.ParamType.coerce?`), and which texts may be written for it
(`UrlRouting.ParamType.accepts`).

Reading is more generous than writing: leading zeros and a plus sign are read, `true` and `false`
too, and an unsigned parameter reads a negative number as zero. Only the canonical text is written.
-/

namespace UrlRouting

/-- The type of a parameter. -/
inductive ParamType where
  /-- A signed integer of 64 bits. -/
  | int
  /-- An unsigned integer of 64 bits. -/
  | uint
  /-- A truth value. -/
  | bool
  deriving DecidableEq, Repr

namespace ParamType

/-- The name of the type. -/
def name : ParamType → String
  | .int => "int"
  | .uint => "uint"
  | .bool => "bool"

/-- The type with a given name; `boolean` is another name of `bool`. -/
def ofName? (text : String) : Option ParamType :=
  if text = "int" then some .int
  else if text = "uint" then some .uint
  else if text = "bool" ∨ text = "boolean" then some .bool
  else none

/-- The regular expression of a parameter of the type that has no validator. -/
def pattern : ParamType → String
  | .int => "-?[0-9]+"
  | .uint => "[0-9]+"
  | .bool => "0|1"

/-- The value that a text stands for. A negative number in the signed range is read as zero by the
unsigned type. -/
def coerce? (type : ParamType) (text : String) : Option Value :=
  match type with
  | .int => (Decimal.readInt? text).bind fun n =>
      if Decimal.isSigned64 n then some (.int n) else none
  | .uint => (Decimal.readInt? text).bind fun n =>
      if Decimal.isSigned64 n then some (.int (max n 0))
      else if Decimal.isUnsigned64 n then some (.int n)
      else none
  | .bool =>
    if text = "1" ∨ text = "true" then some (.bool true)
    else if text = "0" ∨ text = "false" then some (.bool false)
    else none

/-- May the text be written for a parameter of the type? It has to be the canonical text of a value
in the range of the type. -/
def accepts (type : ParamType) (text : String) : Bool :=
  match type with
  | .int => (Decimal.readInt? text).any fun n => Decimal.isSigned64 n && toString n == text
  | .uint => (Decimal.readInt? text).any fun n => Decimal.isUnsigned64 n && toString n == text
  | .bool => text == "0" || text == "1"

end ParamType

end UrlRouting
