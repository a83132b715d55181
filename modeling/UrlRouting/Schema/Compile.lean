import UrlRouting.Regex.Basic
import UrlRouting.Schema.ParamType
import UrlRouting.Schema.Pattern
import UrlRouting.Schema.Reader

/-!
# Compiling a schema

A schema becomes one regular expression, a list of its parameters, and a template to write paths
with. Literal text is escaped, a parameter becomes a capture around its pattern, optional if the
parameter is, and a segment becomes an optional group.

What a parameter does not say itself is looked up by its name: the pattern and the type that are set
for it from outside (`UrlRouting.Override`). Its validator is then its own one, or the one set for
it, or that of its type, and without any of these its pattern is the default one. Parameters are
resolved from left to right, and the first one that cannot be is the error of the schema.

The template numbers the parameters in the order of their captures
(`UrlRouting.Template`, `UrlRouting.captureName`).
-/

namespace UrlRouting

/-! ### What a schema is compiled with -/

/-- The pattern and the type set for a parameter from outside. -/
structure Override where
  /-- The text of a regular expression. -/
  pattern : Option String := none
  /-- The name of a type. -/
  typeName : Option String := none
  deriving DecidableEq, Repr

/-- What a schema is compiled with. -/
structure CompileContext where
  /-- The pattern of parameters of which nothing else is said. -/
  defaultPattern : String := Pattern.default
  /-- The pattern and the type set for each name. -/
  overrides : String → Override := fun _ => {}

/-! ### Compiled schemas -/

/-- A validator: the text that stands in the expression of the schema, and the expression that
checks whole texts. -/
structure Validator where
  /-- The text of a regular expression. -/
  source : String
  /-- The expression that has to match a text as a whole. -/
  regex : Regex
  deriving DecidableEq, Repr

namespace Validator

/-- The validator with the given text, if it compiles when it is anchored. -/
def ofSource? (source : String) : Option Validator :=
  (Regex.compile? (Regex.anchored source)).map fun r => ⟨source, r⟩

/-- Does the text pass? -/
def accepts (v : Validator) (text : String) : Bool := v.regex.isMatch text

end Validator

/-- A parameter of a compiled schema. -/
structure ParamSpec where
  /-- The name. -/
  name : String
  /-- The text taken where nothing is given. -/
  default : Option String
  /-- The type. -/
  type : Option ParamType
  /-- The validator. -/
  validator : Option Validator
  /-- The text of the regular expression that the capture goes around. -/
  pattern : String
  deriving DecidableEq, Repr

/-- A schema as it is written with values: its parts, parameters by number. -/
inductive Template where
  /-- No more parts. -/
  | done
  /-- Literal text, then more. -/
  | literal (text : String) (rest : Template)
  /-- The parameter with a number, then more. -/
  | param (index : Nat) (optional : Bool) (rest : Template)
  /-- An optional segment, then more. -/
  | segment (inner rest : Template)
  deriving DecidableEq, Repr

/-- A compiled schema. -/
structure CompiledSchema where
  /-- The text of a regular expression, without anchors. -/
  fragment : String
  /-- The parameters, from left to right. -/
  params : List ParamSpec
  /-- The parts. -/
  template : Template
  deriving DecidableEq, Repr

/-- The name under which the parameter with a number is captured. -/
def captureName (index : Nat) : String := "p" ++ toString index

/-! ### Parameters -/

/-- Resolves a parameter of a type. -/
def Parameter.resolveWith (p : Parameter) (ctx : CompileContext) (type : Option ParamType) :
    Except SchemaFault ParamSpec :=
  let own := (p.validator.or (ctx.overrides p.name).pattern).map Pattern.ofValidator
  match own.or (type.map ParamType.pattern) with
  | none => .ok ⟨p.name, p.default, type, none, ctx.defaultPattern⟩
  | some source =>
    match Validator.ofSource? source with
    | some v => .ok ⟨p.name, p.default, type, some v, source⟩
    | none => .error (.invalidPattern p.name)

/-- Resolves a parameter behind those with the given names. -/
def Parameter.resolve (p : Parameter) (ctx : CompileContext) (seen : List String) :
    Except SchemaFault ParamSpec :=
  if seen.contains p.name then .error (.duplicateParameter p.name)
  else match p.typeName.or (ctx.overrides p.name).typeName with
    | none => p.resolveWith ctx none
    | some typeName =>
      match ParamType.ofName? typeName with
      | some type => p.resolveWith ctx (some type)
      | none => .error (.unknownType p.name typeName)

/-- The capture of a parameter. -/
def ParamSpec.fragment (spec : ParamSpec) (index : Nat) (optional : Bool) : String :=
  "(?P<" ++ captureName index ++ ">" ++ spec.pattern ++ ")" ++ (if optional then "?" else "")

/-! ### Schemas -/

/-- The compiled parts of a schema: the text, the template, and the parameters from the left end up
to here. -/
structure CompiledParts where
  /-- The text of a regular expression. -/
  fragment : String
  /-- The parts. -/
  template : Template
  /-- The parameters in front of the parts and in them. -/
  params : List ParamSpec

/-- Compiles the parts of a schema behind the given parameters. -/
def Schema.compileParts (ctx : CompileContext) :
    Schema → List ParamSpec → Except SchemaFault CompiledParts
  | .done, params => .ok ⟨"", .done, params⟩
  | .literal text rest, params => do
    let behind ← rest.compileParts ctx params
    return ⟨Regex.escape text ++ behind.fragment, .literal text behind.template, behind.params⟩
  | .param p rest, params => do
    let spec ← p.resolve ctx (params.map (·.name))
    let behind ← rest.compileParts ctx (params ++ [spec])
    return ⟨spec.fragment params.length p.optional ++ behind.fragment,
      .param params.length p.optional behind.template, behind.params⟩
  | .segment inner rest, params => do
    let inside ← inner.compileParts ctx params
    let behind ← rest.compileParts ctx inside.params
    return ⟨"(?:" ++ inside.fragment ++ ")?" ++ behind.fragment,
      .segment inside.template behind.template, behind.params⟩

/-- Compiles a schema. -/
def Schema.compile (schema : Schema) (ctx : CompileContext) : Except SchemaFault CompiledSchema :=
  (schema.compileParts ctx []).map fun parts => ⟨parts.fragment, parts.params, parts.template⟩

/-- Reads and compiles a schema. -/
def CompiledSchema.ofText (text : String) (ctx : CompileContext) :
    Except SchemaError CompiledSchema :=
  match Schema.ofText text with
  | .error e => .error e
  | .ok schema =>
    match schema.compile ctx with
    | .ok compiled => .ok compiled
    | .error fault => .error ⟨text, fault⟩

end UrlRouting
