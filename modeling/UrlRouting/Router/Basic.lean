import UrlRouting.Tree.Names
import UrlRouting.Matching.Search
import UrlRouting.Url.Build

/-!
# Routers

A router is a tree of routes with options, registered controllers, the nodes that have been
compiled, and a seal. Its questions are asked against one view of the compiled nodes
(`UrlRouting.Router.view`): what has been compiled before stays as it is, and every other node
compiles to what the tree says now.

After a question the nodes it looked at are kept (`UrlRouting.Router.keep`). So settings that come
later no longer change them. Sealing compiles all nodes, in order; it fails at the first one that
does not compile, and keeps what it has compiled so far.
-/

namespace UrlRouting

/-- A router. -/
structure Router where
  /-- The routes. -/
  tree : Tree
  /-- The options. -/
  options : Options
  /-- The registered controllers, the last one first. -/
  controllers : List (String × Controller)
  /-- Is registration closed? -/
  isSealed : Bool
  /-- The nodes that have been compiled, and what came out. -/
  kept : List (NodeId × Except SchemaError CompiledNode)

namespace Router

/-- A router without routes. -/
def new (options : Options) : Router := ⟨Tree.empty, options, [], false, []⟩

/-! ### Compiled nodes -/

/-- What every node compiles to: what has been kept, or else what the tree says. -/
def view (r : Router) : View := fun id =>
  match r.kept.lookup id with
  | some result => result
  | none => r.tree.compileNode r.options.defaultPattern id

/-- Keeps what a node compiles to, if that is not kept already. -/
def keepNode (r : Router) (id : NodeId) : Router :=
  if (r.kept.lookup id).isSome then r else { r with kept := r.kept ++ [(id, r.view id)] }

/-- Keeps what several nodes compile to. -/
def keep (r : Router) (ids : List NodeId) : Router := ids.foldl keepNode r

/-! ### Questions -/

/-- The route of a path, and the match. -/
def findMatch (r : Router) (path : String) (method : Option Method) :
    Consult (NodeId × RouteMatch) := do
  match ← r.tree.match? r.view method path with
  | some found => return found
  | none => Consult.fail (.routeNotFound method path)

/-- The url of a named route. -/
def url (r : Router) (name : String) (params : Params) (absolute : Bool) : Consult String :=
  match r.tree.find? name with
  | some id => r.tree.url r.view r.options id params absolute
  | none => Consult.fail (.routeNameNotFound name)

/-! ### The seal -/

/-- Looks at nodes, one after the other, up to the first one that does not compile. -/
def lookAt (view : View) : List NodeId → Consult Unit
  | [] => return ()
  | id :: rest => do
    let _ ← Consult.node view id
    lookAt view rest

/-- Looks at all nodes, unless the router is sealed. -/
def sealUp (r : Router) : Consult Unit :=
  if r.isSealed then return () else lookAt r.view (List.range r.tree.size)

end Router

end UrlRouting
