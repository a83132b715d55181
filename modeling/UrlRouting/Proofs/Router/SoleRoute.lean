import Mathlib
import UrlRouting.Proofs.Router.RoundTrip
import UrlRouting.Proofs.Tree.FullNames

/-!
# Routers with one route

Where all groups compile and no binder fails, a search ends without an error
(`UrlRouting.Tree.match?_ok`). Binders are asked only about what has matched, so it is enough that
those of the nodes that lead to a route do not fail. With a single route there is one row of such
nodes, which is its chain, whatever groups there are besides; so the route is found just if this row
matches, and else no route is found (`UrlRouting.Router.findMatch_of_sole`).
-/

namespace UrlRouting

open Regex

/-! ### Searches that do not fail -/

namespace Tree

/-- **Nothing that a search comes by fails**: groups and routes compile, and the binders of what leads
to a route do not fail. -/
structure Searchable (t : Tree) (view : View) (method : Option Method) : Prop where
  /-- Groups and routes compile. -/
  compiles : ∀ n ∈ t.nodes, n.isGroup = true ∨ n.isRoute = true → ∃ c, view n.id = .ok c
  /-- Binders of what leads to a route do not fail. -/
  binds : ∀ place nodes, t.Leads method place nodes →
    ∀ n ∈ nodes, ∀ clean, ∃ params, t.bindParams n.id clean = .ok params

variable {t : Tree} {view : View} {method : Option Method} {n : Node} {path : String}

theorem matchRoute_ok {compiled : CompiledNode} (hcompiled : view n.id = .ok compiled)
    (hbind : ∀ clean, ∃ params, t.bindParams n.id clean = .ok params) (path : String) :
    ∃ answer, (t.matchRoute view n path).outcome = .ok answer := by
  rw [matchRoute, Consult.bind_of_ok (Consult.node_eq_ok.mpr hcompiled)]
  split
  · exact ⟨none, rfl⟩
  · split
    · exact ⟨none, rfl⟩
    · next clean _ =>
      obtain ⟨params, hparams⟩ := hbind clean
      rw [Consult.bind_of_ok (a := params) hparams]
      exact ⟨_, rfl⟩

theorem matchFirst_ok {nodes : List Node}
    (h : ∀ n ∈ nodes, ∃ answer, (t.matchRoute view n path).outcome = .ok answer) :
    ∃ answer, (t.matchFirst view path nodes).outcome = .ok answer := by
  induction nodes with
  | nil => exact ⟨none, rfl⟩
  | cons n nodes ih =>
    obtain ⟨⟨answer, hanswer⟩, hrest⟩ := List.forall_mem_cons.mp h
    rw [matchFirst, Consult.bind_of_ok hanswer]
    cases answer with
    | some m => exact ⟨_, rfl⟩
    | none => exact ih hrest

/-- A level does not fail, if its groups do not. -/
theorem matchIn_ok_of_groups (h : t.Searchable view method) {nodes : List Node} (hsub : nodes ⊆ t.nodes)
    {place : NodeId}
    (hgroups : ∃ answer, (t.matchGroups view method nodes place path).outcome = .ok answer) :
    ∃ answer, (t.matchIn view method nodes place path).outcome = .ok answer := by
  have hroutes : ∀ n ∈ candidates nodes place method,
      ∃ answer, (t.matchRoute view n path).outcome = .ok answer := by
    intro n hn
    obtain ⟨hmem, hin, own, action, hkind, hanswers⟩ := mem_candidates_iff.mp hn
    have hroute : n.isRoute = true := by rw [Node.isRoute, hkind]
    obtain ⟨c, hc⟩ := h.compiles n (hsub hmem) (.inr hroute)
    exact matchRoute_ok hc
      (h.binds place [n] (.route (hsub hmem) hin hkind hanswers) n List.mem_cons_self) path
  obtain ⟨found, hfound⟩ := matchFirst_ok hroutes
  rw [matchIn, Consult.bind_of_ok hfound]
  cases found with
  | some found => exact ⟨_, rfl⟩
  | none => exact hgroups

/-- **The groups of a place do not fail**, by induction on the nodes still to be gone through. -/
theorem matchGroups_ok (hsound : t.IsSound) (h : t.Searchable view method) {front nodes : List Node}
    (hnodes : t.nodes = front ++ nodes) (place : NodeId) (path : String) :
    ∃ answer, (t.matchGroups view method nodes place path).outcome = .ok answer := by
  induction nodes generalizing front place path with
  | nil => exact ⟨none, rfl⟩
  | cons n later ih =>
    have hlater : t.nodes = (front ++ [n]) ++ later := hnodes.trans (List.append_cons ..)
    have hsub : later ⊆ t.nodes := fun m hm => hlater ▸ List.mem_append_right _ hm
    cases hgroup : n.isGroup && n.isIn place with
    | false =>
      rw [matchGroups_skip hgroup]
      exact ih hlater place path
    | true =>
      obtain ⟨hisGroup, hin⟩ := Bool.and_eq_true_iff.mp hgroup
      have hn : n ∈ t.nodes := hnodes ▸ List.mem_append_right _ List.mem_cons_self
      obtain ⟨compiled, hcompiled⟩ := h.compiles n hn (.inl hisGroup)
      rw [matchGroups_group hgroup, Consult.bind_of_ok (Consult.node_eq_ok.mpr hcompiled)]
      split
      · exact ih hlater place path
      · next trail _ =>
        obtain ⟨inside, hinside⟩ := matchIn_ok_of_groups h hsub
          (ih hlater n.id ((trail.text? restName).getD ""))
        rw [Consult.bind_of_ok hinside]
        split
        · next id m clean hclean =>
          -- something in the group has matched, so the group leads to a route
          have hpairwise := (List.pairwise_append.mp (hlater ▸ hsound.pairwise)).2.1
          obtain ⟨hits, last, -, -, -, hleads, -⟩ := matchIn_answers_of_groups hpairwise hsub
            (fun m hm hin => hsound.mem_later hnodes hm (hsound.lt_of_isIn hm hin))
            (fun answer hanswer => matchGroups_answers hsound hlater hanswer) hinside
          obtain ⟨params, hparams⟩ :=
            h.binds place _ (.group hn hin hisGroup hleads) n List.mem_cons_self clean
          rw [Consult.bind_of_ok (a := params) hparams]
          exact ⟨_, rfl⟩
        · exact ih hlater place path

/-- **A search that nothing keeps from it ends without an error.** -/
theorem match?_ok (hsound : t.IsSound) (h : t.Searchable view method) (path : String) :
    ∃ answer, (t.match? view method path).outcome = .ok answer :=
  matchIn_ok_of_groups h (List.Subset.refl _)
    (matchGroups_ok hsound h (List.nil_append _).symm root path)

/-! ### One row of nodes -/

variable {place : NodeId} {front nodes : List Node} {last : Node} {name : String} {id : NodeId}

/-- A row that leads to the name of a route for all methods leads to the route. -/
theorem LeadsTo.leads {action : Action} (h : t.LeadsTo place name (front ++ [last]))
    (hkind : last.kind = .route none action) : t.Leads method place (front ++ [last]) := by
  generalize hall : front ++ [last] = all at h
  induction h generalizing front with
  | own mem isIn terminal named =>
    obtain ⟨rfl, rfl, -⟩ := eq_of_append_cons_eq_singleton hall
    exact .route mem isIn hkind (.inl rfl)
  | group mem isIn isGroup inside ih =>
    cases front with
    | nil => exact absurd (List.cons.inj hall).2.symm inside.ne_nil
    | cons m front =>
      obtain ⟨rfl, hrest⟩ := List.cons.inj hall
      exact .group mem isIn isGroup (ih hrest)

/-- **With a single route**, what leads to a route from a place is on the chain of that one. -/
theorem Leads.chain_of_sole (hsound : t.IsSound)
    (hsole : ∀ n ∈ t.nodes, n.isRoute = true → n.id = id) (h : t.Leads method place nodes) :
    t.chain id = nodes.reverse ++ t.chain place := by
  obtain ⟨front, last, rfl⟩ : ∃ front last, nodes = front ++ [last] :=
    ⟨_, _, (List.dropLast_append_getLast h.ne_nil).symm⟩
  obtain ⟨hmem, own, action, hkind, -⟩ := h.last
  rw [← hsole last hmem (by rw [Node.isRoute, hkind])]
  exact h.chain_eq hsound

/-- The chain of what stands on the chain has no more binders. -/
theorem binderIn?_of_mem_chain (hsound : t.IsSound) (h : t.binderIn? id name = none)
    (hn : n ∈ t.chain id) : t.binderIn? n.id name = none := by
  obtain ⟨below, hbelow⟩ := hsound.chain_suffix hn
  rw [binderIn?, nearest?, ← hbelow, List.findSome?_append, Option.or_eq_none_iff] at h
  exact h.2

end Tree

namespace Router

variable {r : Router} {method : Option Method} {id : NodeId} {nodes : List Node} {path : String}

/-- **A single route is found just if its row matches**, and else nothing is found, as far as groups
and the route compile, and no binder on its chain is for actions. -/
theorem findMatch_of_sole (hr : r.Reachable)
    (hsole : ∀ n ∈ r.tree.nodes, n.isRoute = true → n.id = id)
    (hcompiles : ∀ n ∈ r.tree.nodes, n.isGroup = true ∨ n.isRoute = true → ∃ c, r.view n.id = .ok c)
    (hbinders : ∀ name, r.tree.binderIn? id name = none)
    (hleads : r.tree.Leads method Tree.root nodes) (path : String) :
    ((∃ m, (r.findMatch path method).outcome = .ok (id, m)) ↔ r.view.Matches nodes path) ∧
      (¬r.view.Matches nodes path →
        (r.findMatch path method).outcome = .error (.routeNotFound method path)) := by
  have hsound := hr.isSound.tree
  have hsearchable : r.tree.Searchable r.view method := by
    refine ⟨hcompiles, fun place ns hns n hn clean => Tree.exists_bindParams (fun name => ?_) clean⟩
    refine Tree.binderIn?_of_mem_chain hsound (hbinders name) ?_
    rw [hns.chain_of_sole hsound hsole]
    exact List.mem_append_left _ (List.mem_reverse.mpr hn)
  -- there is one candidate, as there is one route and its chain says which groups are around it
  have hunique {ns : List Node} (hns : r.tree.Leads method Tree.root ns) : ns = nodes := by
    have hchain := hns.chain_of_sole hsound hsole
    rw [hleads.chain_of_sole hsound hsole] at hchain
    exact List.reverse_inj.mp (List.append_cancel_right hchain).symm
  obtain ⟨answer, hanswer⟩ := Tree.match?_ok hsound hsearchable path
  have hanswers := Tree.match?_answers hsound hanswer
  rw [findMatch, Consult.bind_of_ok hanswer]
  cases answer with
  | none =>
    have hmiss := hanswers nodes hleads
    refine ⟨iff_of_false ?_ hmiss, fun _ => rfl⟩
    rintro ⟨m, hm⟩
    cases hm
  | some found =>
    obtain ⟨hits, last, hwalk, hid, -, hamong, -⟩ := hanswers
    have hmatches : r.view.Matches nodes path := ⟨_, hwalk, hunique hamong⟩
    refine ⟨iff_of_true ⟨found.2, ?_⟩ hmatches, fun hmiss => absurd hmatches hmiss⟩
    obtain ⟨hmem, own, action, hkind, -⟩ := Tree.Leads.last (by rwa [List.map_append] at hamong)
    rw [← hsole last.node hmem (by rw [Node.isRoute, hkind]), hid]
    rfl

end Router

end UrlRouting
