import UrlRouting.Tree.Settings

/-!
# The tree of routes

Routes live in a tree: the root, groups below it, and in both of them routes and hidden routes,
which have a name but are never matched. The nodes are one list, in the order of their registration.
A node's number is its place in the list, and a node names its parent, which was there before it. So
the nodes below a node come later in the list, and its ancestors come earlier; walking down is
recursion along the list, and walking up is recursion along the reversed list.

* `UrlRouting.Tree.add` – registers a node; a name that is taken among its siblings is refused;
* `UrlRouting.Tree.configure` – changes the settings of a node;
* `UrlRouting.Tree.chain` – a node and its ancestors, from the node upwards.
-/

namespace UrlRouting

/-! ### Nodes -/

/-- What a node is. -/
inductive NodeKind where
  /-- The root. -/
  | root
  /-- A group; names of nodes below it are looked up behind its prefix. -/
  | group (namePrefix : Option String)
  /-- A route; without a method it answers to all of them. -/
  | route (method : Option Method) (action : Action)
  /-- A route that has a name only. -/
  | hidden

/-- A node of the tree. -/
structure Node where
  /-- The number. -/
  id : NodeId
  /-- The number of the node it stands in; the root has none. -/
  parent : Option NodeId
  /-- The schema. -/
  schema : String
  /-- The name. -/
  name : Option String
  /-- What the node is. -/
  kind : NodeKind
  /-- What is set on the node. -/
  settings : Settings := {}

namespace Node

/-- Is it a group? -/
def isGroup (n : Node) : Bool :=
  match n.kind with
  | .group _ => true
  | _ => false

/-- Is it a route that can be matched? -/
def isRoute (n : Node) : Bool :=
  match n.kind with
  | .route _ _ => true
  | _ => false

/-- Is it a hidden route? -/
def isHidden (n : Node) : Bool :=
  match n.kind with
  | .hidden => true
  | _ => false

/-- Is it a route for exactly the given method, none standing for all of them? -/
def answersTo (n : Node) (method : Option Method) : Bool :=
  match n.kind with
  | .route own _ => own == method
  | _ => false

/-- The action of a route. -/
def action? (n : Node) : Option Action :=
  match n.kind with
  | .route _ action => some action
  | _ => none

/-- Does it stand in the node with the number? -/
def isIn (n : Node) (parent : NodeId) : Bool := n.parent == some parent

/-- What a failure calls the node: its name, or else its schema. -/
def label (n : Node) : String := n.name.getD n.schema

end Node

/-! ### Trees -/

/-- A tree of routes: its nodes, in the order of registration. -/
structure Tree where
  /-- The nodes. -/
  nodes : List Node

namespace Tree

/-- The number of the root. -/
def root : NodeId := 0

/-- A tree with nothing but its root. -/
def empty : Tree := ⟨[{ id := root, parent := none, schema := "", name := none, kind := .root }]⟩

/-- The node with a number. -/
def get? (t : Tree) (id : NodeId) : Option Node := t.nodes[id]?

/-- The number of nodes. -/
def size (t : Tree) : Nat := t.nodes.length

/-- Is the name taken by a sibling: for a route, a route of the same method, and for a hidden route,
a hidden route? -/
def clashes (t : Tree) (parent : NodeId) (name : String) (kind : NodeKind) : Bool :=
  t.nodes.any fun n => n.isIn parent && n.name == some name &&
    match kind with
    | .route method _ => n.answersTo method
    | .hidden => n.isHidden
    | _ => false

/-- Registers a node below a parent, and gives its number. -/
def add (t : Tree) (parent : NodeId) (schema : String) (name : Option String) (kind : NodeKind) :
    Except RouterError (Tree × NodeId) :=
  match name.filter fun name => t.clashes parent name kind with
  | some taken => .error (.duplicateRouteName taken)
  | none => .ok (⟨t.nodes ++ [{ id := t.size, parent := some parent, schema, name, kind }]⟩, t.size)

/-- Changes the settings of the node with a number. -/
def configure (t : Tree) (id : NodeId) (settings : List Setting) : Tree :=
  ⟨t.nodes.map fun n =>
    if n.id = id then { n with settings := settings.foldl Setting.apply n.settings } else n⟩

/-! ### Upwards -/

/-- The node with a number and its ancestors, among nodes from the latest to the earliest. -/
def chainIn : List Node → NodeId → List Node
  | [], _ => []
  | n :: earlier, id =>
    if n.id = id then
      match n.parent with
      | some parent => n :: chainIn earlier parent
      | none => [n]
    else chainIn earlier id

/-- The node with a number and its ancestors, from the node upwards. -/
def chain (t : Tree) (id : NodeId) : List Node := chainIn t.nodes.reverse id

end Tree

end UrlRouting
