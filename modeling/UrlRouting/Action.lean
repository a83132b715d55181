import UrlRouting.Error
import UrlRouting.Match

/-!
# Actions

What runs when a route matches. An action is a handler, or an identifier such as `Users@show` that
names the action of a controller. Between the route and what runs stand a *hook*, which may
translate identifiers, and a *factory*, which makes controllers out of names.

A handler is a pure function of its context, but it may ask the router it runs in for urls and for
the answers of other routes. So it does not return a value at once: it returns a
`UrlRouting.Reply`, which is an answer, or a question together with what to do with its answer.
-/

namespace UrlRouting

/-- The number of a node, in the order of registration. The root has the number 0. -/
abbrev NodeId := Nat

/-- What an action sees. -/
structure Context where
  /-- The route that matched. -/
  route : NodeId
  /-- The match. -/
  matched : RouteMatch
  /-- The bound values of the match, by position. -/
  args : List Value
  /-- The failure that is being handled, if the action is an error action. -/
  failure : Option RouterError

/-- What a handler does: it answers, or asks first. -/
inductive Reply where
  /-- The answer. -/
  | answer (result : Except ActionError Value)
  /-- A question for the url of a route. -/
  | url (name : String) (params : Params) (next : Except RouterError String → Reply)
  /-- A question for the answer of another route. -/
  | dispatch (path : String) (method : Option Method) (next : Except RouterError Value → Reply)

/-- A handler. -/
abbrev Handler := Context → Reply

/-- What a route runs. -/
inductive Action where
  /-- A handler. -/
  | handler (run : Handler)
  /-- A name, to be resolved when the route has matched. -/
  | identifier (text : String)

/-- A translation of identifiers into actions. -/
abbrev Hook := String → Except ActionError Action

/-- A controller: actions under names. -/
structure Controller where
  /-- Is there an action of the name? -/
  hasAction : String → Bool
  /-- Runs the action of the name. -/
  call : String → Handler

/-- Controllers for names qualified by their namespaces. -/
abbrev ControllerFactory := String → Option Controller

end UrlRouting
