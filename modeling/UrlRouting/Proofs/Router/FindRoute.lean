import Mathlib
import UrlRouting.Proofs.Matching.Groups
import UrlRouting.Proofs.Matching.Order
import UrlRouting.Proofs.Router.Reachable

/-!
# The route that a router finds

A search answers with the first candidate that matches. Said of a router that operations have led
to, that is: the route stands at the end of a walk through its groups, whose nodes are its chain,
and nothing that would have been searched earlier matches (`UrlRouting.Router.FindsAlong`,
`UrlRouting.Router.finds_first`).

A group hands on a suffix of its text. This is so because the expression of a group captures what is
left of the path at its end, and it needs that the patterns of the parameters stay inside their own
captures: the pattern `)(?m)(?:` closes its capture, and has every end of a line count as an end,
and then what the group hands on stops there (`UrlRouting.Router.handed_not_suffix`).
-/

namespace UrlRouting

/-! ### The end of a candidate -/

namespace Tree

variable {t : Tree} {method : Option Method} {place : NodeId} {nodes : List Node} {n : Node}

/-- **A candidate ends with a route** that answers to the method. -/
theorem Leads.last (h : t.Leads method place (nodes ++ [n])) :
    n ∈ t.nodes ∧ ∃ own action, n.kind = .route own action ∧ (own = none ∨ own = method) := by
  generalize hall : nodes ++ [n] = all at h
  induction h generalizing nodes with
  | @route place m own action mem isIn kind answers =>
    obtain ⟨-, rfl, -⟩ := eq_of_append_cons_eq_singleton hall
    exact ⟨mem, own, action, kind, answers⟩
  | @group place g inner mem isIn isGroup inside ih =>
    cases nodes with
    | nil => exact absurd (List.cons.inj hall).2.symm inside.ne_nil
    | cons m nodes => exact ih (List.cons.inj hall).2

theorem Leads.mem (h : t.Leads method place nodes) : ∀ n ∈ nodes, n ∈ t.nodes := by
  induction h with
  | route mem isIn kind answers => exact fun m hm => List.mem_singleton.mp hm ▸ mem
  | group mem isIn isGroup inside ih => exact List.forall_mem_cons.mpr ⟨mem, ih⟩

end Tree

theorem View.Walk.isValid {view : View} {hits : List Hit} {path : String}
    (h : view.Walk hits path) : ∀ hit ∈ hits, hit.IsValid view := by
  induction h with
  | route hit => exact fun h hh => List.mem_singleton.mp hh ▸ hit
  | group hit inside ih => exact List.forall_mem_cons.mpr ⟨hit, ih⟩

namespace Router

variable {r : Router} {method : Option Method} {path : String}

/-! ### What is found -/

/-- What is found is what the tree matches. -/
theorem match?_of_findMatch {id : NodeId} {m : RouteMatch}
    (h : (r.findMatch path method).outcome = .ok (id, m)) :
    (r.tree.match? r.view method path).outcome = .ok (some (id, m)) := by
  obtain ⟨answer, hanswer, h⟩ := Consult.bind_eq_ok.mp h
  cases answer with
  | none => cases h
  | some found =>
    obtain rfl : found = (id, m) := Except.ok.inj h
    exact hanswer

/-- **A route is found along some hits**: those of the groups around it, from the outside in, and
its own one. -/
structure FindsAlong (r : Router) (method : Option Method) (path : String) (id : NodeId)
    (hits : List Hit) : Prop where
  /-- It is a route, for all methods or for the one asked for. -/
  route : ∃ n own action, r.tree.get? id = some n ∧ n.kind = .route own action ∧
    (own = none ∨ own = method)
  /-- The hits are those of its chain. -/
  chain : r.tree.chain id = (hits.map (·.node)).reverse ++ r.tree.chain Tree.root
  /-- It is a candidate: the nodes in front of it are groups. -/
  leads : r.tree.Leads method Tree.root (hits.map (·.node))
  /-- The first hit is about the path, and every other one about what the one in front of it hands
  on. -/
  walk : r.view.Walk hits path
  /-- All captured values fit their types. -/
  fits : ∀ hit ∈ hits, hit.compiled.schema.Fits hit.trail
  /-- A group hands on a suffix of its text, as far as the pattern of each of its parameters is an
  expression by itself. -/
  suffix : ∀ hit ∈ hits, hit.node.isGroup = true →
    (∀ spec ∈ hit.compiled.schema.params, (Regex.Syntax.read? spec.pattern).isSome) →
      hit.handed.toList <:+ hit.text.toList
  /-- No candidate that is searched before it matches. -/
  first : ∀ nodes, r.tree.Leads method Tree.root nodes → SearchedBefore nodes (hits.map (·.node)) →
    ¬r.view.Matches nodes path

/-- **A search that ends without an error** has found the first candidate that matches, or there is
none. -/
theorem finds_first (hr : r.Reachable) {answer : Option (NodeId × RouteMatch)}
    (h : (r.tree.match? r.view method path).outcome = .ok answer) :
    match answer with
    | some (id, _) => ∃ hits, r.FindsAlong method path id hits
    | none => ∀ nodes, r.tree.Leads method Tree.root nodes → ¬r.view.Matches nodes path := by
  have hsound := hr.isSound
  have hanswers := Tree.match?_answers hsound.tree h
  cases answer with
  | none => exact hanswers
  | some found =>
    obtain ⟨id, m⟩ := found
    obtain ⟨hits, last, hwalk, rfl, -, hleads, hfirst⟩ := hanswers
    have hend : r.tree.Leads method Tree.root (hits.map (·.node) ++ [last.node]) := by
      rwa [List.map_append] at hleads
    obtain ⟨hmem, own, action, hkind, hown⟩ := hend.last
    refine ⟨hits ++ [last], ⟨last.node, own, action, hsound.tree.mem_iff.mp hmem, hkind, hown⟩, ?_,
      hleads, hwalk, fun hit hhit => (hwalk.isValid hit hhit).fits, ?_, hfirst⟩
    · rw [List.map_append]
      exact hend.chain_eq hsound.tree
    · intro hit hhit hgroup halone
      have hvalid := hwalk.isValid hit hhit
      obtain ⟨ctx, -, hview⟩ := hsound.view_eq
        (hsound.tree.mem_iff.mp (hleads.mem hit.node (List.mem_map_of_mem hhit)))
      have hsuffix := Node.handed_isSuffix hgroup (hview.symm.trans hvalid.compiles) halone
        hvalid.captures
      exact hsuffix

set_option maxRecDepth 4000 in
theorem finds_first_in_group :
    ((ofGroup {} "/a" "/b" (.identifier "")).tree.match? (ofGroup {} "/a" "/b" (.identifier "")).view
      none "/a/b").outcome = .ok (some (2, ⟨"/a/b", .empty, .empty⟩)) ∧
    ∃ hits, (ofGroup {} "/a" "/b" (.identifier "")).FindsAlong none "/a/b" 2 hits := by
  have hfound : ((ofGroup {} "/a" "/b" (.identifier "")).tree.match?
      (ofGroup {} "/a" "/b" (.identifier "")).view none "/a/b").outcome =
        .ok (some (2, ⟨"/a/b", .empty, .empty⟩)) := by cbv
  exact ⟨hfound, finds_first (reachable_ofGroup _ _ _ _) hfound⟩

/-- What a node hands on, if it is a group that matches. -/
def handed? (r : Router) (id : NodeId) (path : String) : Option String :=
  match r.view id with
  | .ok compiled => (compiled.matcher.bind (·.captures? path)).bind (Regex.Trail.text? restName)
  | .error _ => none

set_option maxRecDepth 4000 in
/-- A pattern may close the capture that goes around it, and change what the end of a text is for
the rest of the expression: the route is found, but its group has handed on no more than a line. -/
theorem handed_not_suffix :
    ((ofGroup { defaultPattern := ")(?m)(?:" } "\x7bx\x7d" "b" (.identifier "")).findMatch
      "b\nfoo" none).outcome.isOk = true ∧
    (ofGroup { defaultPattern := ")(?m)(?:" } "\x7bx\x7d" "b" (.identifier "")).handed? 1 "b\nfoo" =
      some "b" ∧
    ¬"b".toList <:+ "b\nfoo".toList := by
  refine ⟨by cbv, by cbv, by decide⟩

end Router

end UrlRouting
