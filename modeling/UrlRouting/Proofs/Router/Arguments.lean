import Mathlib
import UrlRouting.Proofs.Matching.Layers
import UrlRouting.Proofs.Router.FindRoute

/-!
# The arguments of an action

The action of a route gets the bound values of the match by position. Which position a value has
follows from the schemas alone: the names that the route declares come first, in the order of its
schema, then those of each group around it, from the inside out, as far as they are new
(`UrlRouting.Node.names`, `UrlRouting.layered`). A name that is declared twice has the value of the
inner node, and the binder is looked for from there upwards
(`UrlRouting.Router.match_along_chain`).
-/

namespace UrlRouting

/-! ### Declared names -/

/-- The names that a node declares, in the order of its schema. -/
def Node.names (n : Node) : List String := n.declared.map (·.name)

/-- **A compiled node has the parameters that it declares**, and their names are distinct. -/
theorem Node.names_of_compile {n : Node} {ctx : CompileContext} {c : CompiledNode}
    (h : n.compile ctx = .ok c) : c.schema.params.map (·.name) = n.names ∧ n.names.Nodup := by
  obtain ⟨s, hs, hresolve, hschema⟩ := exists_schema_of_compile h
  have hnames : n.names = s.params.map (·.name) := by
    rw [names, declared, Schema.declaredIn_eq hs]
  rw [hschema, hnames]
  exact ⟨s.names_specs ctx, hresolve.nodup⟩

/-- The root declares nothing, and nothing is above it. -/
theorem Tree.IsSound.chain_root {t : Tree} (h : t.IsSound) :
    ∃ r, t.chain root = [r] ∧ r.names = [] := by
  obtain ⟨r, hr, -, hparent, hschema⟩ := h.atRoot
  refine ⟨r, ?_, ?_⟩
  · rw [h.chain_eq hr, hparent]
  · rw [Node.names, Node.declared, hschema]
    rfl

namespace Router

variable {r : Router} {method : Option Method} {path : String} {id : NodeId} {m : RouteMatch}

/-! ### Running the action of a match -/

/-- Every question of a reply is answered, so that it comes to an answer of its own. -/
theorem converse_eq_ok (r : Router) (dispatch : String → Option Method → Consult Value)
    (reply : Reply) : ∃ result, (r.converse dispatch reply).outcome = .ok result := by
  induction reply with
  | answer result => exact ⟨result, rfl⟩
  | url name params next ih =>
    obtain ⟨result, hresult⟩ := ih (r.url name params false).outcome
    exact ⟨result, Consult.bind_eq_ok.mpr ⟨_, rfl, hresult⟩⟩
  | dispatch path method next ih =>
    obtain ⟨result, hresult⟩ := ih (dispatch path method).outcome
    exact ⟨result, Consult.bind_eq_ok.mpr ⟨_, rfl, hresult⟩⟩

/-- **What a dispatch answers** is what the handler of the action answers, given the match and its
bound values by position, whatever answers the paths that it asks for. -/
theorem dispatch_of_findMatch (h : (r.findMatch path method).outcome = .ok (id, m))
    (inner : String → Option Method → Consult Value) {action : Action} {handler : Handler}
    (haction : r.action id = .ok action) (hhandler : r.resolve id action = .ok handler) :
    ∃ result, (r.converse inner
        (handler ⟨id, m, m.params.entries.map (·.2), none⟩)).outcome = .ok result ∧
      match result with
      | .ok v => (r.dispatch inner path method).outcome = .ok v
      | .error cause => r.tree.errorAction? id = none →
          (r.dispatch inner path method).outcome = .error (.actionFailed (r.label id) cause) := by
  obtain ⟨result, hresult⟩ :=
    r.converse_eq_ok inner (handler ⟨id, m, m.params.entries.map (·.2), none⟩)
  refine ⟨result, hresult, ?_⟩
  have hdispatch : (r.dispatch inner path method).outcome = (r.execute inner id m).outcome := by
    rw [dispatch, Consult.bind_of_ok h]
  have hfirst : (do
      let action ← Consult.lift (r.action id)
      r.run inner action ⟨id, m, m.params.values, none⟩).outcome =
        match result with
        | .ok v => .ok v
        | .error cause => .error (.actionFailed (r.label id) cause) := by
    rw [Params.values, Consult.bind_of_ok (a := action) haction, run,
      Consult.bind_of_ok (a := handler) hhandler, Consult.bind_of_ok hresult]
    cases result <;> rfl
  rw [execute, Consult.bind_of_ok (a := _) (Consult.outcome_attempt ..), hfirst] at hdispatch
  cases result with
  | ok v => exact hdispatch
  | error cause =>
    intro hnone
    dsimp only at hdispatch
    rw [hnone] at hdispatch
    exact hdispatch

/-! ### The match -/

/-- **A match says what the chain of its route says**, along the hits of that chain. -/
structure MatchesAlong (r : Router) (path : String) (id : NodeId) (m : RouteMatch)
    (hits : List Hit) : Prop where
  /-- The match is about the whole path. -/
  whole : m.path = path
  /-- The hits are those of the chain. -/
  chain : r.tree.chain id = (hits.map (·.node)).reverse ++ r.tree.chain Tree.root
  /-- The first hit is about the path, and every other one about what the one in front of it hands
  on. -/
  walk : r.view.Walk hits path
  /-- The names of the clean values are those of the route, then those of its groups, from the
  inside out. -/
  clean : m.clean.names = layered ((r.tree.chain id).map Node.names)
  /-- The bound values have the same names in the same order. -/
  params : m.params.names = m.clean.names
  /-- The names are distinct. -/
  nodup : m.clean.names.Nodup
  /-- The bound values, one after the other, are those of the names in their order. -/
  args : (m.params.entries.map (·.2)).map some = m.params.names.map m.params.get?
  /-- The value of a name comes from the innermost node that declares it. -/
  values : ∀ outer hit inner name, hits = outer ++ hit :: inner → name ∈ hit.node.names →
    (∀ h ∈ inner, name ∉ h.node.names) → r.tree.Gives hit name m

/-- What a hit of a walk has the values of are the names that its node declares. -/
theorem names_of_walk (hsound : r.IsSound) {hits : List Hit} (hwalk : r.view.Walk hits path)
    (hmem : ∀ hit ∈ hits, hit.node ∈ r.tree.nodes) {hit : Hit} (hhit : hit ∈ hits) :
    hit.names = hit.node.names ∧ hit.names.Nodup := by
  obtain ⟨ctx, -, hview⟩ := hsound.view_eq (hsound.tree.mem_iff.mp (hmem hit hhit))
  obtain ⟨hsame, hnodup⟩ :=
    Node.names_of_compile (hview.symm.trans (hwalk.isValid hit hhit).compiles)
  refine ⟨hsame, ?_⟩
  rwa [Hit.names, hsame]

/-- **Every match has the shape that the chain of its route gives it**, and the action of the route
gets its bound values in their order. -/
theorem match_along_chain (hr : r.Reachable)
    (h : (r.findMatch path method).outcome = .ok (id, m)) :
    (∃ hits, r.MatchesAlong path id m hits) ∧
      ∀ inner action handler, r.action id = .ok action → r.resolve id action = .ok handler →
        ∃ result, (r.converse inner
            (handler ⟨id, m, m.params.entries.map (·.2), none⟩)).outcome = .ok result ∧
          match result with
          | .ok v => (r.dispatch inner path method).outcome = .ok v
          | .error cause => r.tree.errorAction? id = none →
              (r.dispatch inner path method).outcome = .error (.actionFailed (r.label id) cause) := by
  refine ⟨?_, fun inner action handler => dispatch_of_findMatch h inner⟩
  have hsound := hr.isSound
  obtain ⟨hits, last, hwalk, rfl, hassembles, hleads, -⟩ :=
    Tree.match?_answers hsound.tree (match?_of_findMatch h)
  have hnames (hit : Hit) (hhit : hit ∈ hits ++ [last]) :
      hit.names = hit.node.names ∧ hit.names.Nodup :=
    names_of_walk hsound hwalk (fun hit hhit => hleads.mem _ (List.mem_map_of_mem hhit)) hhit
  have hlayers := hassembles.layers fun hit hhit => (hnames hit hhit).2
  have hchain : r.tree.chain last.node.id =
      ((hits ++ [last]).map (·.node)).reverse ++ r.tree.chain Tree.root := by
    rw [List.map_append] at hleads ⊢
    exact hleads.chain_eq hsound.tree
  have hclean : m.clean.names = layered ((r.tree.chain last.node.id).map Node.names) := by
    -- the root is at the end of the chain, and declares nothing
    obtain ⟨root, hroot, hnone⟩ := hsound.tree.chain_root
    rw [hlayers.clean, hchain, hroot, List.map_append, List.map_singleton, hnone,
      layered_append_nil, ← List.map_reverse, List.map_map]
    refine congrArg layered (List.map_congr_left fun hit hhit => ?_)
    exact (hnames hit (List.mem_reverse.mp hhit)).1
  have hparams := hlayers.params.trans hlayers.clean.symm
  refine ⟨hits ++ [last], hassembles.path_eq hwalk, hchain, hwalk, hclean, hparams, hlayers.nodup,
    Params.map_values_eq (hparams ▸ hlayers.nodup), ?_⟩
  intro outer hit inner name heq hname hinner
  have hmem (other : Hit) (hother : other ∈ hit :: inner) : other.names = other.node.names :=
    (hnames other (heq ▸ List.mem_append_right outer hother)).1
  refine hlayers.values outer hit inner name heq ?_ fun other hother => ?_
  · rw [hmem hit List.mem_cons_self]
    exact hname
  · rw [hmem other (List.mem_cons_of_mem hit hother)]
    exact hinner other hother

/-- A page in a group, both of which have a parameter; its action answers its arguments. -/
def argumentsPage : Router :=
  ofGroup {} "/\x7bsection\x7d" "/\x7bpage\x7d" (.handler fun ctx => .answer (.ok (.arr ctx.args)))

set_option maxRecDepth 4000 in
/-- The value of the page comes first, although the section stands in front of it in the path. -/
theorem match_along_chain_in_group :
    (argumentsPage.findMatch "/a/b" none).outcome =
      .ok (2, ⟨"/a/b", ⟨[("page", .str "b"), ("section", .str "a")]⟩,
        ⟨[("page", .str "b"), ("section", .str "a")]⟩⟩) ∧
    (∃ hits, argumentsPage.MatchesAlong "/a/b" 2
      ⟨"/a/b", ⟨[("page", .str "b"), ("section", .str "a")]⟩,
        ⟨[("page", .str "b"), ("section", .str "a")]⟩⟩ hits) ∧
    (argumentsPage.dispatchUpTo {} "/a/b" none).outcome = .ok (.arr [.str "b", .str "a"]) := by
  have hfound : (argumentsPage.findMatch "/a/b" none).outcome =
      .ok (2, ⟨"/a/b", ⟨[("page", .str "b"), ("section", .str "a")]⟩,
        ⟨[("page", .str "b"), ("section", .str "a")]⟩⟩) := by cbv
  obtain ⟨hmatch, hargs⟩ := match_along_chain (reachable_ofGroup _ _ _ _) hfound
  obtain ⟨result, hresult, hdispatch⟩ := hargs
    (argumentsPage.dispatchWithin ({} : Nesting).failure 1000) _ _ rfl rfl
  obtain rfl : .ok (.arr [.str "b", .str "a"]) = result := Except.ok.inj hresult
  exact ⟨hfound, hmatch, hdispatch⟩

end Router

end UrlRouting
