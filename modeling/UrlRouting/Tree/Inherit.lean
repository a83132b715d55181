import UrlRouting.Schema.Compile
import UrlRouting.Tree.Basic

/-!
# Inherited settings

Which settings are in force at a node: of the node and its ancestors, the nearest one that sets a
thing decides. Every thing is looked up by itself, so that a group may set the type of a parameter
and a route in it the pattern. Only the namespaces add up, from the root down to the node.
-/

namespace UrlRouting

namespace Tree

/-- What the nearest node sets, from the node with the number upwards. -/
def nearest? (t : Tree) (id : NodeId) (pick : Settings → Option α) : Option α :=
  (t.chain id).findSome? fun n => pick n.settings

/-- The schema of the host. -/
def host? (t : Tree) (id : NodeId) : Option String := t.nearest? id (·.host)

/-- The error action. -/
def errorAction? (t : Tree) (id : NodeId) : Option Action := t.nearest? id (·.errorAction)

/-- The hook. -/
def hook? (t : Tree) (id : NodeId) : Option Hook := t.nearest? id (·.hook)

/-- The factory. -/
def factory? (t : Tree) (id : NodeId) : Option ControllerFactory := t.nearest? id (·.factory)

/-- The binder of a parameter towards actions. -/
def binderIn? (t : Tree) (id : NodeId) (name : String) : Option Transform :=
  t.nearest? id (·.binders.input? name)

/-- The binder of a parameter towards urls. -/
def binderOut? (t : Tree) (id : NodeId) (name : String) : Option Transform :=
  t.nearest? id (·.binders.output? name)

/-- The pattern set for a parameter. -/
def pattern? (t : Tree) (id : NodeId) (name : String) : Option String :=
  t.nearest? id (·.patterns.lookup name)

/-- The type set for a parameter. -/
def typeName? (t : Tree) (id : NodeId) (name : String) : Option String :=
  t.nearest? id (·.types.lookup name)

/-- What is set for a parameter of the schemas at a node. -/
def override (t : Tree) (id : NodeId) (name : String) : Override :=
  ⟨t.pattern? id name, t.typeName? id name⟩

/-- What schemas at a node are compiled with. -/
def compileContext (t : Tree) (id : NodeId) (defaultPattern : String) : CompileContext :=
  ⟨defaultPattern, t.override id⟩

/-- The namespaces from the root down to the node, those that are not empty. -/
def qualifiers (t : Tree) (id : NodeId) : List String :=
  ((t.chain id).reverse.filterMap (·.settings.qualifier)).filter (!·.isEmpty)

/-- The name of a controller behind its namespaces. -/
def qualify (t : Tree) (id : NodeId) (separator name : String) : String :=
  separator.intercalate (t.qualifiers id ++ [name])

end Tree

end UrlRouting
