import UrlRouting.Router.Basic

/-!
# Running actions

When a route has matched, its action is resolved and run. A handler runs as it is. An identifier
goes through the nearest hook once; what comes out is a handler, or an identifier again, of the form
`controller@action`. The controller is asked for by its name behind the namespaces of the route,
from the nearest factory if there is one, and else from the controllers that are registered.

If resolving or running fails, the nearest error action is resolved and run in the same way, with
the failure in its context, and its result is the answer. Errors of the match itself are not
handled.

An action may have the router dispatch another path, whose action may do the same. How these paths
are dispatched is a parameter of dispatching (`UrlRouting.Router.dispatch`), because nothing says
that the nesting comes to an end: an action may dispatch its own path. Whoever asks for a dispatch
bounds the nesting, and within the bound the paths that actions ask for are dispatched in the same
way (`UrlRouting.Router.dispatchUpTo`).
-/

namespace UrlRouting

/-- A bound on the nesting of dispatches. -/
structure Nesting where
  /-- How deep dispatches may nest inside the first one. -/
  depth : Nat := 1000
  /-- What a dispatch fails with that would nest deeper. -/
  failure : RouterError := .actionFailed "" (.message "dispatched too deeply")

namespace Router

/-! ### Resolving -/

/-- The controller and the action that an identifier names: what stands in front of its first at
sign, and what stands behind it. -/
def splitIdentifier? (identifier : String) : Option (String × String) :=
  let cs := identifier.toList
  match cs.dropWhile (· != '@') with
  | [] => none
  | _ :: action => some (String.ofList (cs.takeWhile (· != '@')), String.ofList action)

/-- What failures call the node with a number. -/
def label (r : Router) (id : NodeId) : String := ((r.tree.get? id).map Node.label).getD ""

/-- The controller of a qualified name, for a route. -/
def controller? (r : Router) (route : NodeId) (name : String) : Option Controller :=
  match r.tree.factory? route with
  | some make => make name
  | none => r.controllers.lookup name

/-- The action behind the nearest hook. -/
def translate (r : Router) (route : NodeId) (action : Action) : Except RouterError Action :=
  match r.tree.hook? route, action with
  | some hook, .identifier text => (hook text).mapError (.actionFailed (r.label route))
  | _, action => .ok action

/-- The handler that an action means for a route. -/
def resolve (r : Router) (route : NodeId) (action : Action) : Except RouterError Handler := do
  match ← r.translate route action with
  | .handler run => return run
  | .identifier text =>
    match splitIdentifier? text with
    | none => throw (.actionNotInvocable (r.label route))
    | some (name, action) =>
      let qualified := r.tree.qualify route r.options.separator name
      match r.controller? route qualified with
      | none => throw (.controllerNotFound qualified)
      | some controller =>
        if controller.hasAction action then return controller.call action
        else throw (.actionNotFound qualified action)

/-! ### Running -/

/-- Answers the questions of a reply, given how paths are dispatched, up to its answer. -/
def converse (r : Router) (dispatch : String → Option Method → Consult Value) :
    Reply → Consult (Except ActionError Value)
  | .answer result => return result
  | .url name params next => do
    let answer ← (r.url name params false).attempt
    converse r dispatch (next answer)
  | .dispatch path method next => do
    let answer ← (dispatch path method).attempt
    converse r dispatch (next answer)

/-- Resolves and runs an action for a route. -/
def run (r : Router) (dispatch : String → Option Method → Consult Value) (action : Action)
    (ctx : Context) : Consult Value := do
  let handler ← Consult.lift (r.resolve ctx.route action)
  match ← r.converse dispatch (handler ctx) with
  | .ok v => return v
  | .error cause => Consult.fail (.actionFailed (r.label ctx.route) cause)

/-- The action of a route. Other nodes have none. -/
def action (r : Router) (route : NodeId) : Except RouterError Action :=
  match (r.tree.get? route).bind Node.action? with
  | some action => .ok action
  | none => .error (.actionNotInvocable (r.label route))

/-- Runs the action of a route that has matched, and on failure the nearest error action. -/
def execute (r : Router) (dispatch : String → Option Method → Consult Value) (route : NodeId)
    (m : RouteMatch) : Consult Value := do
  let ctx : Context := ⟨route, m, m.params.values, none⟩
  let first : Consult Value := do
    let action ← Consult.lift (r.action route)
    r.run dispatch action ctx
  match ← first.attempt with
  | .ok v => return v
  | .error failure =>
    match r.tree.errorAction? route with
    | some handling => r.run dispatch handling { ctx with failure := some failure }
    | none => Consult.fail failure

/-! ### Dispatching -/

/-- Dispatches a path, given how the paths are dispatched that actions ask for: finds its route and
runs the action of that. -/
def dispatch (r : Router) (inner : String → Option Method → Consult Value) (path : String)
    (method : Option Method) : Consult Value := do
  let (route, m) ← r.findMatch path method
  r.execute inner route m

/-- Dispatches a path that an action asks for, with so many levels of nesting left. -/
def dispatchWithin (r : Router) (failure : RouterError) :
    Nat → String → Option Method → Consult Value
  | 0, _, _ => Consult.fail failure
  | depth + 1, path, method => r.dispatch (r.dispatchWithin failure depth) path method

/-- Dispatches a path within a bound on the nesting. -/
def dispatchUpTo (r : Router) (nesting : Nesting) (path : String) (method : Option Method) :
    Consult Value :=
  r.dispatch (r.dispatchWithin nesting.failure nesting.depth) path method

end Router

end UrlRouting
