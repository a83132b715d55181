/-!
# Route schemas

A schema is a row of parts: literal text, parameters in braces, and optional segments in brackets,
which are schemas again.

```text
/user/{id:1#int|[0-9]+}?[/page/{page}]
```

A parameter has a name and may have a default text, the name of a type, and a validator, the text of
a regular expression. A question mark behind its brace makes it optional.

The row is part of the type (`UrlRouting.Schema`): a schema is finished, or a part followed by a
schema. So recursion on a schema is recursion on the type, into segments and along the row alike.
-/

namespace UrlRouting

/-- A parameter of a schema. -/
structure Parameter where
  /-- The name, which is not empty. -/
  name : String
  /-- The text taken where nothing is given; not empty. -/
  default : Option String
  /-- The name of the type; not empty. -/
  typeName : Option String
  /-- The text of a regular expression; not empty. -/
  validator : Option String
  /-- Is the parameter optional? -/
  optional : Bool
  deriving DecidableEq, Repr

/-- A schema: a row of parts. -/
inductive Schema where
  /-- No more parts. -/
  | done
  /-- Literal text, then more. -/
  | literal (text : String) (rest : Schema)
  /-- A parameter, then more. -/
  | param (p : Parameter) (rest : Schema)
  /-- An optional segment, then more. -/
  | segment (inner rest : Schema)
  deriving DecidableEq, Repr

namespace Schema

/-- One row behind another. -/
def append : Schema → Schema → Schema
  | .done, s => s
  | .literal text rest, s => .literal text (rest.append s)
  | .param p rest, s => .param p (rest.append s)
  | .segment inner rest, s => .segment inner (rest.append s)

/-- The parameters, from left to right, those of segments included. -/
def params : Schema → List Parameter
  | .done => []
  | .literal _ rest => rest.params
  | .param p rest => p :: rest.params
  | .segment inner rest => inner.params ++ rest.params

end Schema

end UrlRouting
