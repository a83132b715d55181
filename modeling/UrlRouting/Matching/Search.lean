import UrlRouting.Consult
import UrlRouting.Matching.Values

/-!
# Finding the route of a path

At every level the routes come first, in the order of registration: those that answer to all
methods, then those for the method that was asked for. Then come the groups. A group matches the
beginning of the path, and what it leaves of the path is searched for in the group; the group's own
values are looked at when something in it has matched, and if they do not fit their types, the group
has not matched at all.

A route that does not match, or whose values do not fit their types, is passed over. Errors are not:
a schema that does not compile and a binder that fails end the search.
-/

namespace UrlRouting

namespace Tree

/-- The routes of a node that answer to a method, in the order in which they are tried. -/
def candidates (nodes : List Node) (parent : NodeId) (method : Option Method) : List Node :=
  (nodes.filter fun n => n.isIn parent && n.answersTo none) ++
    match method with
    | some m => nodes.filter fun n => n.isIn parent && n.answersTo (some m)
    | none => []

/-- The match of a path by a route. -/
def matchRoute (t : Tree) (view : View) (n : Node) (path : String) :
    Consult (Option RouteMatch) := do
  let compiled ← Consult.node view n.id
  match compiled.matcher.bind (·.captures? path) with
  | none => return none
  | some trail =>
    match compiled.schema.clean? trail with
    | none => return none
    | some clean =>
      let params ← Consult.lift (t.bindParams n.id clean)
      return some ⟨path, params, clean⟩

/-- The first of some routes that matches a path. -/
def matchFirst (t : Tree) (view : View) (path : String) :
    List Node → Consult (Option (NodeId × RouteMatch))
  | [] => return none
  | n :: rest => do
    match ← t.matchRoute view n path with
    | some m => return some (n.id, m)
    | none => matchFirst t view path rest

/-- The first route that matches a path in the groups of a node, among nodes in the order of
registration. -/
def matchGroups (t : Tree) (view : View) (method : Option Method) :
    List Node → NodeId → String → Consult (Option (NodeId × RouteMatch))
  | [], _, _ => return none
  | n :: later, parent, path =>
    if n.isGroup && n.isIn parent then do
      let compiled ← Consult.node view n.id
      match compiled.matcher.bind (·.captures? path) with
      | none => matchGroups t view method later parent path
      | some trail =>
        let rest := (Regex.Trail.text? restName trail).getD ""
        let inside ← do
          match ← t.matchFirst view rest (candidates later n.id method) with
          | some found => pure (some found)
          | none => matchGroups t view method later n.id rest
        match inside, compiled.schema.clean? trail with
        | some (id, m), some clean => do
          let params ← Consult.lift (t.bindParams n.id clean)
          return some (id, m.nestUnder path params clean)
        | _, _ => matchGroups t view method later parent path
    else matchGroups t view method later parent path

/-- The first route that matches a path. -/
def match? (t : Tree) (view : View) (method : Option Method) (path : String) :
    Consult (Option (NodeId × RouteMatch)) := do
  match ← t.matchFirst view path (candidates t.nodes root method) with
  | some found => return some found
  | none => matchGroups t view method t.nodes root path

end Tree

end UrlRouting
