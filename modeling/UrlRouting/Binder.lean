import UrlRouting.Error
import UrlRouting.Value.Basic

/-!
# Binders

A binder turns the value of a parameter into something an action would rather have, and back. The
two directions are registered apart, and a later registration replaces an earlier one of the same
name and direction only.
-/

namespace UrlRouting

/-- One direction of a binder. -/
abbrev Transform := Value → Except ActionError Value

/-- Binders by the names of parameters, the last registered ones first. -/
structure BinderTable where
  /-- From what a path says to what an action gets. -/
  inputs : List (String × Transform) := []
  /-- From what a url is asked for with to what its path says. -/
  outputs : List (String × Transform) := []

namespace BinderTable

/-- Registers the binder towards actions. -/
def bindIn (t : BinderTable) (name : String) (f : Transform) : BinderTable :=
  { t with inputs := (name, f) :: t.inputs }

/-- Registers the binder towards urls. -/
def bindOut (t : BinderTable) (name : String) (f : Transform) : BinderTable :=
  { t with outputs := (name, f) :: t.outputs }

/-- The binder towards actions. -/
def input? (t : BinderTable) (name : String) : Option Transform := t.inputs.lookup name

/-- The binder towards urls. -/
def output? (t : BinderTable) (name : String) : Option Transform := t.outputs.lookup name

end BinderTable

end UrlRouting
