import UrlRouting.Proofs.Matching.Order

/-!
# A search with one way to go

Where a place holds a single route, or a single group, the search of that place has nothing to
choose from: it asks this node, and if the node does not match, there is no match
(`UrlRouting.Tree.matchIn_route`, `UrlRouting.Tree.matchIn_group`). So in a tree that is one chain
of groups around a route, a search is a walk down the chain.
-/

namespace UrlRouting

open Regex

namespace Tree

variable {t : Tree} {view : View} {method own : Option Method} {n g : Node} {nodes later : List Node}
  {place : NodeId} {path : String} {action : Action} {compiled : CompiledNode}

/-! ### Places with one node -/

/-- A node that is no route of the place is no candidate. -/
theorem candidates_cons (h : ∀ own, (n.isIn place && n.answersTo own) = false) :
    candidates (n :: nodes) place method = candidates nodes place method := by
  have hfilter (own : Option Method) :
      (n :: nodes).filter (fun n => n.isIn place && n.answersTo own) =
        nodes.filter fun n => n.isIn place && n.answersTo own :=
    List.filter_cons_of_neg (by rw [h own]; exact Bool.false_ne_true)
  cases method with
  | none => rw [candidates.eq_def, candidates.eq_def, hfilter]
  | some m => rw [candidates, candidates, hfilter, hfilter]

theorem candidates_elsewhere (h : n.isIn place = false) :
    candidates (n :: nodes) place method = candidates nodes place method :=
  candidates_cons fun own => by rw [h, Bool.false_and]

theorem candidates_group (h : n.isGroup = true) :
    candidates (n :: nodes) place method = candidates nodes place method := by
  refine candidates_cons fun own => ?_
  rw [Node.isGroup] at h
  rw [Node.answersTo]
  split at h
  · next hk => rw [hk, Bool.and_false]
  · cases h

/-- A place without nodes has no candidates. -/
theorem candidates_eq_nil (h : ∀ n ∈ nodes, n.isIn place = false) :
    candidates nodes place method = [] := by
  induction nodes with
  | nil => cases method <;> rfl
  | cons n nodes ih =>
    obtain ⟨hn, hnodes⟩ := List.forall_mem_cons.mp h
    rw [candidates_elsewhere hn, ih hnodes]

/-- A place without nodes has no match. -/
theorem matchGroups_eq_none (h : ∀ n ∈ nodes, n.isIn place = false) :
    t.matchGroups view method nodes place path = pure none := by
  induction nodes with
  | nil => rfl
  | cons n nodes ih =>
    obtain ⟨hn, hnodes⟩ := List.forall_mem_cons.mp h
    rw [matchGroups_skip (by rw [hn, Bool.and_false]), ih hnodes]

/-- A node of another place does not matter. -/
theorem matchIn_skip (h : n.isIn place = false) :
    t.matchIn view method (n :: nodes) place path = t.matchIn view method nodes place path := by
  rw [matchIn, matchIn, candidates_elsewhere h, matchGroups_skip (by rw [h, Bool.and_false])]

/-- Nodes of other places do not matter. -/
theorem matchIn_append {front nodes : List Node} (h : ∀ m ∈ front, m.isIn place = false) :
    t.matchIn view method (front ++ nodes) place path = t.matchIn view method nodes place path := by
  induction front with
  | nil => rfl
  | cons m front ih =>
    obtain ⟨hm, hfront⟩ := List.forall_mem_cons.mp h
    rw [List.cons_append, matchIn_skip hm, ih hfront]

/-- **A place with one route**: the route matches, or nothing does. -/
theorem matchIn_route (hin : n.isIn place = true) (hkind : n.kind = .route own action)
    (hown : own = none ∨ own = method) :
    t.matchIn view method [n] place path = (do
      match ← t.matchRoute view n path with
      | some m => return some (n.id, m)
      | none => return none) := by
  have hgroup : n.isGroup = false := by rw [Node.isGroup, hkind]
  have hcandidates : candidates [n] place method = [n] := by
    cases own with
    | none => cases method <;> simp [candidates, Node.answersTo, hin, hkind]
    | some m =>
      obtain rfl := hown.resolve_left (Option.some_ne_none m)
      simp [candidates, Node.answersTo, hin, hkind]
  rw [matchIn, hcandidates, matchGroups_skip (by rw [hgroup, Bool.false_and]), matchFirst, bind_assoc]
  refine bind_congr fun found => ?_
  cases found <;> rfl

/-- **A place with one group**: the group matches, and something in it, or nothing does. -/
theorem matchIn_group (hin : g.isIn place = true) (hgroup : g.isGroup = true)
    (hlater : ∀ n ∈ later, n.isIn place = false) :
    t.matchIn view method (g :: later) place path = (do
      let compiled ← Consult.node view g.id
      match compiled.matcher.bind (·.captures? path) with
      | none => return none
      | some trail =>
        let inside ← t.matchIn view method later g.id ((trail.text? restName).getD "")
        match inside, compiled.schema.clean? trail with
        | some (id, m), some clean => do
          let params ← Consult.lift (t.bindParams g.id clean)
          return some (id, m.nestUnder path params clean)
        | _, _ => return none) := by
  rw [matchIn, candidates_group hgroup, candidates_eq_nil hlater,
    matchGroups_group (by rw [hgroup, hin]; rfl), matchGroups_eq_none hlater]
  rfl

/-! ### What is found there -/

/-- **What a route finds**, if it compiles and its binders do not fail: the clean values that it
captures. -/
theorem matchIn_route_clean (path : String) (hin : n.isIn place = true) (hkind : n.kind = .route own action)
    (hown : own = none ∨ own = method) (hcompiled : view n.id = .ok compiled)
    (hbind : ∀ clean, ∃ params, t.bindParams n.id clean = .ok params) :
    ∃ found, (t.matchIn view method [n] place path).outcome = .ok found ∧
      found.map (·.2.clean) =
        (compiled.matcher.bind (·.captures? path)).bind compiled.schema.clean? := by
  rw [matchIn_route hin hkind hown, matchRoute, bind_assoc,
    Consult.bind_of_ok (Consult.node_eq_ok.mpr hcompiled)]
  cases compiled.matcher.bind (·.captures? path) with
  | none => exact ⟨none, rfl, rfl⟩
  | some trail =>
    rw [Option.bind_some]
    dsimp only
    cases hclean : compiled.schema.clean? trail with
    | none => exact ⟨none, rfl, rfl⟩
    | some clean =>
      obtain ⟨params, hparams⟩ := hbind clean
      dsimp only
      rw [bind_assoc, Consult.bind_of_ok (a := params) hparams]
      exact ⟨some (n.id, ⟨path, params, clean⟩), rfl, rfl⟩

/-- **What a group finds**, if it compiles and its binders do not fail: the clean values of what is
found in it, with its own ones below. -/
theorem matchIn_group_clean (path : String) (hin : g.isIn place = true) (hgroup : g.isGroup = true)
    (hlater : ∀ n ∈ later, n.isIn place = false) (hcompiled : view g.id = .ok compiled)
    (hbind : ∀ clean, ∃ params, t.bindParams g.id clean = .ok params)
    {values : String → Option Params}
    (hinside : ∀ rest, ∃ found, (t.matchIn view method later g.id rest).outcome = .ok found ∧
      found.map (·.2.clean) = values rest) :
    ∃ found, (t.matchIn view method (g :: later) place path).outcome = .ok found ∧
      found.map (·.2.clean) = (compiled.matcher.bind (·.captures? path)).bind fun trail =>
        (values ((trail.text? restName).getD "")).bind fun inner =>
          (compiled.schema.clean? trail).map inner.underlay := by
  rw [matchIn_group hin hgroup hlater, Consult.bind_of_ok (Consult.node_eq_ok.mpr hcompiled)]
  cases compiled.matcher.bind (·.captures? path) with
  | none => exact ⟨none, rfl, rfl⟩
  | some trail =>
    obtain ⟨inside, hfound, hvalues⟩ := hinside ((trail.text? restName).getD "")
    rw [Option.bind_some, ← hvalues]
    dsimp only
    rw [Consult.bind_of_ok (a := inside) hfound]
    cases inside with
    | none => exact ⟨none, rfl, rfl⟩
    | some found =>
      cases hclean : compiled.schema.clean? trail with
      | none => exact ⟨none, rfl, rfl⟩
      | some clean =>
        obtain ⟨params, hparams⟩ := hbind clean
        dsimp only
        rw [Consult.bind_of_ok (a := params) hparams]
        exact ⟨some (found.1, found.2.nestUnder path params clean), rfl, rfl⟩

end Tree

end UrlRouting
