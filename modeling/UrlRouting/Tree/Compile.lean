import UrlRouting.Tree.Inherit

/-!
# Compiled nodes

A node that can be matched gets a regular expression out of its schema. A route has to match a whole
path. A group matches the beginning of one and captures the rest, as long as possible, for what
stands in it.
-/

namespace UrlRouting

/-- A node with its schema compiled. -/
structure CompiledNode where
  /-- The schema. -/
  schema : CompiledSchema
  /-- What paths are matched with, if the node can be matched. -/
  matcher : Option Regex
  deriving DecidableEq, Repr

/-- The name under which a group captures the rest of a path. -/
def restName : String := "child"

namespace Node

/-- The text of the regular expression that paths are matched with, given that of the schema. -/
def matcherSource? (n : Node) (fragment : String) : Option String :=
  match n.kind with
  | .route _ _ => some ("^" ++ fragment ++ "$")
  | .group _ => some ("^" ++ fragment ++ "(?P<" ++ restName ++ ">.*)$")
  | _ => none

/-- Compiles the schema of a node. -/
def compile (n : Node) (ctx : CompileContext) : Except SchemaError CompiledNode :=
  match CompiledSchema.ofText n.schema ctx with
  | .error e => .error e
  | .ok schema =>
    match n.matcherSource? schema.fragment with
    | none => .ok ⟨schema, none⟩
    | some source =>
      match Regex.compile? source with
      | some r => .ok ⟨schema, some r⟩
      | none => .error ⟨n.schema, .invalidPattern ""⟩

end Node

/-- Compiles the schema of the node with a number. There is nothing to compile without a node. -/
def Tree.compileNode (t : Tree) (defaultPattern : String) (id : NodeId) :
    Except SchemaError CompiledNode :=
  match t.get? id with
  | some n => n.compile (t.compileContext id defaultPattern)
  | none => .ok ⟨⟨"", [], .done⟩, none⟩

end UrlRouting
