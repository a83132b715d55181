import UrlRouting.Method
import UrlRouting.Schema.Error

/-!
# Errors

Two types of errors refer to each other. An action, a binder or a hook fails with an error of its
own (`UrlRouting.ActionError`), which may be the error of a router it asked; a router that runs them
wraps their errors in its own (`UrlRouting.RouterError`).

The message of every error is one function. The reason why a pattern is invalid is not part of the
messages; `UrlRouting.RouterError.isAboutPattern` says of an error whether such a reason is at the
end of its chain of causes.
-/

namespace UrlRouting

mutual

/-- What a router fails with. -/
inductive RouterError where
  /-- No route matches the path. -/
  | routeNotFound (method : Option Method) (path : String)
  /-- No route has the name. -/
  | routeNameNotFound (name : String)
  /-- A parameter that a route requires has no value. -/
  | missingRequiredParameter (name route : String)
  /-- The value of a parameter is not of the expected form. -/
  | paramValidationFailed (name value expected : String)
  /-- A controller does not have the action. -/
  | actionNotFound (controller action : String)
  /-- The action of a route is nothing that can be run. -/
  | actionNotInvocable (route : String)
  /-- There is no controller of the name. -/
  | controllerNotFound (controller : String)
  /-- The action of a route, or its translation, failed. -/
  | actionFailed (route : String) (cause : ActionError)
  /-- The binder of a parameter failed. -/
  | binderFailed (name : String) (cause : ActionError)
  /-- The name of a route is taken. -/
  | duplicateRouteName (name : String)
  /-- Something was to be registered at a sealed router. -/
  | registerWhileSealed (target : String)
  /-- There is no host for an absolute url. -/
  | missingHost (name : String)
  /-- A schema was rejected. -/
  | schema (e : SchemaError)

/-- What an action, a binder or a hook fails with. -/
inductive ActionError where
  /-- A failure in words. -/
  | message (text : String)
  /-- The failure of a router that was asked. -/
  | router (e : RouterError)

end

deriving instance Repr for RouterError
deriving instance Repr for ActionError

/-! ### Messages -/

mutual

/-- The message of an error. -/
def RouterError.message : RouterError → String
  | .routeNotFound method path => "no route matched " ++ Method.label method ++ " '" ++ path ++ "'"
  | .routeNameNotFound name => "route '" ++ name ++ "' not found"
  | .missingRequiredParameter name route =>
    "parameter '" ++ name ++ "' is required in route '" ++ route ++ "'"
  | .paramValidationFailed name value expected =>
    "parameter '" ++ name ++ "' value '" ++ value ++ "' is not '" ++ expected ++ "'"
  | .actionNotFound controller action =>
    "action '" ++ action ++ "' does not exist in controller '" ++ controller ++ "'"
  | .actionNotInvocable route => "action of route '" ++ route ++ "' is not invocable"
  | .controllerNotFound controller =>
    "controller '" ++ controller ++ "' could not be instantiated"
  | .actionFailed route cause => "action of route '" ++ route ++ "' failed: " ++ cause.text
  | .binderFailed name cause => "binder for parameter '" ++ name ++ "' failed: " ++ cause.text
  | .duplicateRouteName name => "route name '" ++ name ++ "' is already registered"
  | .registerWhileSealed target => "router is sealed; cannot register " ++ target
  | .missingHost name => "route '" ++ name ++ "' has no host to build an absolute url"
  | .schema e => e.message

/-- The words of a failure. -/
def ActionError.text : ActionError → String
  | .message text => text
  | .router e => e.message

end

/-! ### Causes -/

mutual

/-- Does an invalid pattern stand at the end of the chain of causes? -/
def RouterError.isAboutPattern : RouterError → Bool
  | .actionFailed _ cause => cause.isAboutPattern
  | .binderFailed _ cause => cause.isAboutPattern
  | .schema e => e.isAboutPattern
  | _ => false

/-- Does an invalid pattern stand at the end of the chain of causes? -/
def ActionError.isAboutPattern : ActionError → Bool
  | .message _ => false
  | .router e => e.isAboutPattern

end

end UrlRouting
