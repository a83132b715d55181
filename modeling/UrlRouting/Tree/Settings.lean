import UrlRouting.Action
import UrlRouting.Binder

/-!
# Settings of a node

What can be set on a node of the tree of routes, for the node itself and for everything below it.
Patterns, types and binders are set for each parameter name apart. Of two values for one thing on
one node the one set last counts; it is put in front.
-/

namespace UrlRouting

/-- What is set on one node. -/
structure Settings where
  /-- The schema of the host that urls begin with. -/
  host : Option String := none
  /-- What runs when an action fails. -/
  errorAction : Option Action := none
  /-- The translation of identifiers. -/
  hook : Option Hook := none
  /-- What makes controllers. -/
  factory : Option ControllerFactory := none
  /-- The namespace of controllers. -/
  qualifier : Option String := none
  /-- The binders. -/
  binders : BinderTable := {}
  /-- The patterns of parameters that declare none, by name. -/
  patterns : List (String × String) := []
  /-- The types of parameters that declare none, by name. -/
  types : List (String × String) := []

/-- The setting of one thing. -/
inductive Setting where
  /-- Both directions of a binder. -/
  | bind (name : String) (input output : Transform)
  /-- The binder towards actions. -/
  | bindIn (name : String) (input : Transform)
  /-- The binder towards urls. -/
  | bindOut (name : String) (output : Transform)
  /-- The pattern of a parameter. -/
  | pattern (name regex : String)
  /-- The type of a parameter. -/
  | paramType (name typeName : String)
  /-- The host. -/
  | host (schema : String)
  /-- The error action. -/
  | errorAction (action : Action)
  /-- The hook. -/
  | hook (translate : Hook)
  /-- The factory. -/
  | factory (make : ControllerFactory)
  /-- The namespace of controllers. -/
  | qualifier (name : String)

namespace Setting

/-- Sets one thing. -/
def apply (s : Settings) : Setting → Settings
  | .bind name input output =>
    { s with binders := (s.binders.bindIn name input).bindOut name output }
  | .bindIn name input => { s with binders := s.binders.bindIn name input }
  | .bindOut name output => { s with binders := s.binders.bindOut name output }
  | .pattern name regex => { s with patterns := (name, regex) :: s.patterns }
  | .paramType name typeName => { s with types := (name, typeName) :: s.types }
  | .host schema => { s with host := some schema }
  | .errorAction action => { s with errorAction := some action }
  | .hook translate => { s with hook := some translate }
  | .factory make => { s with factory := some make }
  | .qualifier name => { s with qualifier := some name }

/-- What is said to be registered when a setting comes too late. -/
def target : Setting → String
  | .bind name _ _ => "binder '" ++ name ++ "'"
  | .bindIn name _ => "binder '" ++ name ++ "'"
  | .bindOut name _ => "binder '" ++ name ++ "'"
  | .pattern name _ => "pattern '" ++ name ++ "'"
  | .paramType name _ => "param type '" ++ name ++ "'"
  | .host _ => "host"
  | .errorAction _ => "error action"
  | .hook _ => "dispatcher"
  | .factory _ => "controller factory"
  | .qualifier _ => "namespace"

end Setting

end UrlRouting
