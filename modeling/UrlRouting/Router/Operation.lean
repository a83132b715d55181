import UrlRouting.Router.Dispatch
import UrlRouting.Router.Plan

/-!
# Operations of a router

Everything that can be done with a router, as data: registrations, settings, the seal, and
questions. An operation takes a router to the router after it and gives an answer
(`UrlRouting.Router.step`); a list of operations is carried out one after the other, whatever the
answers are (`UrlRouting.Router.runAll`).

A sealed router refuses every registration and setting before anything of it is carried out.
-/

namespace UrlRouting

/-- An operation. -/
inductive Operation where
  /-- Registers a route. -/
  | route (schema : String) (name : Option String) (method : Option Method) (action : Action)
  /-- Registers a hidden route. -/
  | hidden (schema name : String)
  /-- Registers a group with its plan. -/
  | group (schema : String) (namePrefix : Option String) (plan : Plan)
  /-- Carries out a plan in the root. -/
  | routes (plan : Plan)
  /-- Sets something on the root. -/
  | setting (s : Setting)
  /-- Registers a controller under a qualified name. -/
  | controller (name : String) (controller : Controller)
  /-- Dispatches a path, within a bound on the nesting. -/
  | dispatch (path : String) (method : Option Method) (nesting : Nesting := {})
  /-- Asks for the route of a path. -/
  | findMatch (path : String) (method : Option Method)
  /-- Asks for the node with a name. -/
  | find (name : String)
  /-- Asks for the url of a named route. -/
  | url (name : String) (params : Params) (absolute : Bool)
  /-- Seals the router. -/
  | sealUp
  /-- Asks whether the router is sealed. -/
  | isSealed
  /-- Asks for the name and the schema of a node. -/
  | node (id : NodeId)
  /-- Asks for the options. -/
  | options

/-- The answer to an operation. -/
inductive Answer where
  /-- A registration. -/
  | registered (outcome : Except RouterError NodeId)
  /-- A registration with a plan. -/
  | built (outcome : Except RouterError NodeId) (report : Report)
  /-- A setting, or the seal. -/
  | done (outcome : Except RouterError Unit)
  /-- A value. -/
  | value (outcome : Except RouterError Value)
  /-- A route and a match. -/
  | matched (outcome : Except RouterError (NodeId × RouteMatch))
  /-- A node, if there is one. -/
  | found (id : Option NodeId)
  /-- A url. -/
  | text (outcome : Except RouterError String)
  /-- Yes or no. -/
  | flag (b : Bool)
  /-- The name and the schema of a node. -/
  | described (name schema : Option String)
  /-- Options. -/
  | options (o : Options)

namespace Operation

/-- What is said to be registered when an operation comes too late; questions never do. -/
def target? : Operation → Option String
  | .route schema .. => some ("route '" ++ schema ++ "'")
  | .hidden schema _ => some ("route '" ++ schema ++ "'")
  | .group schema _ _ => some ("group '" ++ schema ++ "'")
  | .routes _ => some "routes"
  | .setting s => some s.target
  | .controller name _ => some ("controller '" ++ name ++ "'")
  | _ => none

/-- The answer of a sealed router to an operation that comes too late. -/
def refusal (op : Operation) (e : RouterError) : Answer :=
  match op with
  | .group .. | .routes _ => .built (.error e) .done
  | .setting _ | .controller .. => .done (.error e)
  | _ => .registered (.error e)

end Operation

namespace Router

/-- Registers a single node in the root. -/
def register (r : Router) (reg : Registration) : Router × Answer :=
  match reg.carryOut r.tree Tree.root with
  | .ok (t, id) => ({ r with tree := t }, .registered (.ok (id.getD Tree.root)))
  | .error e => (r, .registered (.error e))

/-- Carries out an operation of a router that is open to it. -/
def perform (r : Router) : Operation → Router × Answer
  | .route schema name method action => r.register (.route schema name method action [])
  | .hidden schema name => r.register (.hidden schema name [])
  | .group schema namePrefix plan =>
    match r.tree.add Tree.root schema none (.group namePrefix) with
    | .error e => (r, .built (.error e) .done)
    | .ok (t, id) =>
      let p := plan.carryOut t id
      ({ r with tree := p.tree },
        .built (match p.failure with | none => .ok id | some e => .error e) p.report)
  | .routes plan =>
    let p := plan.carryOut r.tree Tree.root
    ({ r with tree := p.tree },
      .built (match p.failure with | none => .ok Tree.root | some e => .error e) p.report)
  | .setting s => ({ r with tree := r.tree.configure Tree.root [s] }, .done (.ok ()))
  | .controller name c => ({ r with controllers := (name, c) :: r.controllers }, .done (.ok ()))
  | .dispatch path method nesting =>
    let answer := r.dispatchUpTo nesting path method
    (r.keep answer.consulted, .value answer.outcome)
  | .findMatch path method =>
    let answer := r.findMatch path method
    (r.keep answer.consulted, .matched answer.outcome)
  | .find name => (r, .found (r.tree.find? name))
  | .url name params absolute =>
    let answer := r.url name params absolute
    (r.keep answer.consulted, .text answer.outcome)
  | .sealUp =>
    let answer := r.sealUp
    let kept := r.keep answer.consulted
    match answer.outcome with
    | .ok () => ({ kept with isSealed := true }, .done (.ok ()))
    | .error e => (kept, .done (.error e))
  | .isSealed => (r, .flag r.isSealed)
  | .node id => (r, .described ((r.tree.get? id).bind (·.name)) ((r.tree.get? id).map (·.schema)))
  | .options => (r, .options r.options)

/-- Carries out an operation. -/
def step (r : Router) (op : Operation) : Router × Answer :=
  match op.target?.filter fun _ => r.isSealed with
  | some target => (r, op.refusal (.registerWhileSealed target))
  | none => r.perform op

/-- Carries out operations, one after the other. -/
def runAll (r : Router) : List Operation → Router × List Answer
  | [] => (r, [])
  | op :: rest =>
    let (r, answer) := r.step op
    let (r, answers) := r.runAll rest
    (r, answer :: answers)

end Router

end UrlRouting
