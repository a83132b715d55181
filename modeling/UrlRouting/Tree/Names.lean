import UrlRouting.Tree.Basic

/-!
# Looking up names

A name is looked up in the root: among its routes, then among its hidden routes, then in its groups,
one after the other. A group is looked into if its prefix begins the name, and then for what is left
of the name; a group without a prefix is looked into for the whole name.
-/

namespace UrlRouting

/-- What is left of a text behind its beginning. -/
def behind? : List Char → List Char → Option (List Char)
  | [], cs => some cs
  | _ :: _, [] => none
  | p :: ps, c :: cs => if p = c then behind? ps cs else none

namespace Node

/-- The prefix of a group; without one it is empty. -/
def namePrefix (n : Node) : String :=
  match n.kind with
  | .group namePrefix => namePrefix.getD ""
  | _ => ""

/-- What is left of a name in the group. -/
def nameWithin? (n : Node) (name : String) : Option String :=
  (behind? n.namePrefix.toList name.toList).map String.ofList

end Node

namespace Tree

/-- The route, or else the hidden route, that stands in a node and has a name. -/
def ownNamed? (nodes : List Node) (parent : NodeId) (name : String) : Option NodeId :=
  let named (n : Node) : Bool := n.isIn parent && n.name == some name
  match nodes.find? fun n => n.isRoute && named n with
  | some n => some n.id
  | none => (nodes.find? fun n => n.isHidden && named n).map (·.id)

/-- The first node with a name in the groups of a node, among nodes in the order of registration. -/
def groupNamed? : List Node → NodeId → String → Option NodeId
  | [], _, _ => none
  | n :: later, parent, name =>
    let inside :=
      if n.isGroup && n.isIn parent then
        match n.nameWithin? name with
        | some rest =>
          match ownNamed? later n.id rest with
          | some id => some id
          | none => groupNamed? later n.id rest
        | none => none
      else none
    match inside with
    | some id => some id
    | none => groupNamed? later parent name

/-- The first node with a name. -/
def find? (t : Tree) (name : String) : Option NodeId :=
  match ownNamed? t.nodes root name with
  | some id => some id
  | none => groupNamed? t.nodes root name

end Tree

end UrlRouting
