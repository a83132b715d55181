import UrlRouting.Tree.Inherit
import UrlRouting.Match

/-!
# From captures to values

What a match says about the parameters of a schema. The text of a parameter is what was captured for
it; if that is nothing or empty, it is the default, and without a default the value is null. A type
turns the text into a value, and a text that does not fit its type undoes the match. Then binders
turn clean values into bound ones, null left alone.
-/

namespace UrlRouting

/-- The text that a match gives a parameter, the default included. -/
def ParamSpec.textOf? (spec : ParamSpec) (index : Nat) (trail : Regex.Trail) : Option String :=
  ((trail.text? (captureName index)).filter (!·.isEmpty)).or spec.default

/-- The clean value of a parameter, if its text fits. -/
def ParamSpec.clean? (spec : ParamSpec) (text : Option String) : Option Value :=
  match text, spec.type with
  | none, _ => some .null
  | some text, none => some (.str text)
  | some text, some type => type.coerce? text

/-- The clean values of parameters, numbered on from `index`, behind other ones. -/
def cleanFrom? (trail : Regex.Trail) : List ParamSpec → (index : Nat) → Params → Option Params
  | [], _, params => some params
  | spec :: rest, index, params =>
    match spec.clean? (spec.textOf? index trail) with
    | some v => cleanFrom? trail rest (index + 1) (params.insert spec.name v)
    | none => none

/-- The clean values that a match gives the parameters of a schema. -/
def CompiledSchema.clean? (schema : CompiledSchema) (trail : Regex.Trail) : Option Params :=
  cleanFrom? trail schema.params 0 Params.empty

/-- The bound value of a clean one. -/
def Tree.bindValue (t : Tree) (id : NodeId) (name : String) (v : Value) :
    Except RouterError Value :=
  match t.binderIn? id name with
  | some f => if v.isNull then .ok v else (f v).mapError (.binderFailed name)
  | none => .ok v

/-- The bound values of clean ones, one after the other, behind other ones. -/
def Tree.bindEntries (t : Tree) (id : NodeId) :
    List (String × Value) → Params → Except RouterError Params
  | [], bound => .ok bound
  | (name, v) :: rest, bound => do
    let w ← t.bindValue id name v
    t.bindEntries id rest (bound.insert name w)

/-- The bound values of the clean ones of a node. -/
def Tree.bindParams (t : Tree) (id : NodeId) (clean : Params) : Except RouterError Params :=
  t.bindEntries id clean.entries Params.empty

end UrlRouting
