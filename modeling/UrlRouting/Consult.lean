import UrlRouting.Tree.Compile

/-!
# Consultations

Nodes are compiled when they are first needed, and what comes out, an error included, is kept. So
every answer of a router depends on compiled nodes, and leaves some behind. The two are kept apart
here: a question is asked against a fixed view of the compiled nodes (`UrlRouting.View`), and its
answer carries the numbers of the nodes that were looked at, whatever the answer is
(`UrlRouting.Consult`). What is kept is then extended by these nodes.

Consultations compose: an answer that is an error ends the rest, and the numbers of what was looked
at add up.
-/

namespace UrlRouting

/-- What every node compiles to. -/
abbrev View := NodeId → Except SchemaError CompiledNode

/-- An answer, and the nodes that were looked at for it. -/
structure Consult (α : Type) where
  /-- The answer. -/
  outcome : Except RouterError α
  /-- The numbers of the nodes, in the order in which they were looked at. -/
  consulted : List NodeId

namespace Consult

/-- Goes on with an answer, unless it is an error. -/
def andThen (x : Consult α) (f : α → Consult β) : Consult β :=
  match x.outcome with
  | .ok a => ⟨(f a).outcome, x.consulted ++ (f a).consulted⟩
  | .error e => ⟨.error e, x.consulted⟩

instance : Monad Consult where
  pure a := ⟨.ok a, []⟩
  bind := andThen

/-- An answer that needs no nodes. -/
def lift (outcome : Except RouterError α) : Consult α := ⟨outcome, []⟩

/-- An error. -/
def fail (e : RouterError) : Consult α := ⟨.error e, []⟩

/-- The compiled node with a number. -/
def node (view : View) (id : NodeId) : Consult CompiledNode := ⟨(view id).mapError .schema, [id]⟩

/-- The answer as a value, error or not. -/
def attempt (x : Consult α) : Consult (Except RouterError α) := ⟨.ok x.outcome, x.consulted⟩

end Consult

end UrlRouting
