import UrlRouting.Tree.Inherit
import UrlRouting.Value.Json

/-!
# Filling a schema with values

A schema is written from right to left. An optional parameter whose text is its default is left out
as long as nothing to its right in its row has been written. A segment is written if every parameter
that it requires has a text, and is left out as a whole otherwise.

The parameters that a row names are used up when the row is done, whether it was written or not. So
a binder that is handed all the values that remain, because none was given for its own parameter,
sees those of the row it belongs to and of the rows around it that are to its left.

The text of a parameter is that of the value given for it, behind its binder; else that of what its
binder makes of all values, unless that counts as not given; else the default.
-/

namespace UrlRouting

/-! ### The text of a value -/

/-- The text of a value in a url. A list or an object has none. -/
def Value.urlText (name : String) : Value → Except RouterError String
  | .null => .ok ""
  | .bool b => .ok (if b then "1" else "0")
  | .int n => .ok (toString n)
  | .double x => .ok x.text
  | .str s => .ok s
  | .arr items => .error (.paramValidationFailed name (Value.arr items).json "scalar")
  | .obj fields => .error (.paramValidationFailed name (Value.obj fields).json "scalar")

/-! ### The text of a parameter -/

/-- The text of a parameter; empty if there is none. -/
def ParamSpec.resolve (spec : ParamSpec) (output : Option Transform) (params : Params) :
    Except RouterError String :=
  match params.get? spec.name, output with
  | some v, none => v.urlText spec.name
  | some v, some f => do
    let w ← (f v).mapError (.binderFailed spec.name)
    w.urlText spec.name
  | none, none => .ok (spec.default.getD "")
  | none, some f => do
    let w ← (f params.toObject).mapError (.binderFailed spec.name)
    if w.isVoid then .ok (spec.default.getD "") else w.urlText spec.name

/-- Checks a text against the type and the validator of a parameter. -/
def ParamSpec.check (spec : ParamSpec) (text : String) : Except RouterError Unit :=
  match spec.type.filter (!·.accepts text) with
  | some type => .error (.paramValidationFailed spec.name text type.name)
  | none =>
    match spec.validator.filter (!·.accepts text) with
    | some v => .error (.paramValidationFailed spec.name text v.source)
    | none => .ok ()

/-- What becomes of a parameter. -/
inductive Emission where
  /-- Its text is written. -/
  | text (s : String)
  /-- It is left out. -/
  | skip
  /-- It has no text, and its row cannot be written. -/
  | missing
  deriving DecidableEq, Repr

/-- What becomes of a parameter with a text. -/
def ParamSpec.emit (spec : ParamSpec) (route text : String) (optional required behind : Bool) :
    Except RouterError Emission :=
  if text.isEmpty then
    if optional then .ok .skip
    else if required then .error (.missingRequiredParameter spec.name route)
    else .ok .missing
  else do
    spec.check text
    if optional && !behind && spec.default == some text then return .skip else return .text text

/-! ### Rows -/

/-- A row that has been written, from some part of it to its right end. -/
structure Filled where
  /-- The text. -/
  text : String
  /-- The parameters that remain, those that the row itself names included. -/
  params : Params
  /-- The parameters that the row names. -/
  used : List String
  /-- Is something missing in the row? -/
  missing : Bool

/-- The parameters that remain when the row is done. -/
def Filled.left (f : Filled) : Params := f.params.eraseAll f.used

/-- Where a schema is written: the binders of its parameters, its text, its parameters. -/
structure FillContext where
  /-- The binders towards urls. -/
  output : String → Option Transform
  /-- The text of the schema, for errors. -/
  route : String
  /-- The parameters of the schema. -/
  specs : List ParamSpec

/-- Writes a row. In a row that is required, nothing may be missing. -/
def Template.fill (ctx : FillContext) : Template → Bool → Params → Except RouterError Filled
  | .done, _, params => .ok ⟨"", params, [], false⟩
  | .literal text rest, required, params => do
    let row ← rest.fill ctx required params
    return { row with text := text ++ row.text }
  | .param index optional rest, required, params => do
    let row ← rest.fill ctx required params
    match ctx.specs[index]? with
    | none => return row
    | some spec =>
      let row := { row with used := row.used ++ [spec.name] }
      if row.missing then return row
      else
        let text ← spec.resolve (ctx.output spec.name) row.params
        match ← spec.emit ctx.route text optional required (!row.text.isEmpty) with
        | .text s => return { row with text := s ++ row.text }
        | .skip => return row
        | .missing => return { row with missing := true }
  | .segment inner rest, required, params => do
    let row ← rest.fill ctx required params
    let inside ← inner.fill ctx false row.params
    let text := if inside.missing then "" else inside.text
    return { row with text := text ++ row.text, params := inside.left }

/-- Writes the schema of a node, or one that is used at it. Values that count as not given are
dropped first. -/
def Tree.fillSchema (t : Tree) (id : NodeId) (route : String) (schema : CompiledSchema)
    (params : Params) : Except RouterError (String × Params) := do
  let row ← schema.template.fill ⟨t.binderOut? id, route, schema.params⟩ true params.given
  return (row.text, row.left)

end UrlRouting
