/-!
# What can be wrong with a schema

A schema is rejected when it is read, for its form, or when it is compiled, for what its parameters
ask for. Positions are offsets in bytes of the UTF-8 text.

The message about an invalid pattern names the parameter and the schema. What is wrong with the
pattern is not part of it.
-/

namespace UrlRouting

/-- What is wrong with a schema. -/
inductive SchemaFault where
  /-- A brace that is never closed. -/
  | unterminatedParameter (start : Nat)
  /-- A bracket that is never closed. -/
  | unterminatedSegment (start : Nat)
  /-- A closing brace or bracket that closes nothing. -/
  | unexpectedClosing (index : Nat) (found : Char)
  /-- A parameter with an empty name. -/
  | missingName
  /-- A backslash at the end. -/
  | loneEscape (index : Nat)
  /-- Two parameters with one name. -/
  | duplicateParameter (name : String)
  /-- A parameter of a type that does not exist. -/
  | unknownType (name typeName : String)
  /-- A parameter whose validator is no regular expression; or, without a name, a schema that is
  none as a whole. -/
  | invalidPattern (name : String)
  deriving DecidableEq, Repr

/-- The rejection of a schema. -/
structure SchemaError where
  /-- The text of the schema. -/
  schema : String
  /-- What is wrong with it. -/
  fault : SchemaFault
  deriving DecidableEq, Repr

namespace SchemaError

/-- The message of a rejection. -/
def message (e : SchemaError) : String :=
  let schema := "schema '" ++ e.schema ++ "'"
  match e.fault with
  | .unterminatedParameter start =>
    schema ++ " has an unterminated parameter starting at byte " ++ toString start
  | .unterminatedSegment start =>
    schema ++ " has an unterminated optional segment starting at byte " ++ toString start
  | .unexpectedClosing index found =>
    schema ++ " has an unexpected '" ++ found.toString ++ "' at byte " ++ toString index
  | .missingName => "parameter in " ++ schema ++ " is missing a name"
  | .loneEscape index =>
    schema ++ " ends with a lone escape character at byte " ++ toString index
  | .duplicateParameter name =>
    "parameter '" ++ name ++ "' is declared more than once in " ++ schema
  | .unknownType name typeName =>
    "unknown type '" ++ typeName ++ "' for parameter '" ++ name ++ "' in " ++ schema
  | .invalidPattern name => "invalid pattern for parameter '" ++ name ++ "' in " ++ schema

/-- Is the rejection about a pattern? -/
def isAboutPattern (e : SchemaError) : Bool :=
  match e.fault with
  | .invalidPattern _ => true
  | _ => false

end SchemaError

end UrlRouting
