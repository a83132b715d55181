import Mathlib
import UrlRouting.Proofs.Matching.Chains
import UrlRouting.Proofs.Matching.Nesting
import UrlRouting.Proofs.Router.FindRoute

/-!
# A group and the route in it, written as one route

The schemas of a group and of a route in it can be written as one schema. A router with that one
route matches what the group and its route match, and gives the parameters the same clean values;
and what it matches besides are paths in which the group has committed itself to a beginning that
the route cannot go on from (`UrlRouting.Router.nested_iff_joined`). There are such paths: with
`/a[/b]` for the group and `/b` for the route, the group takes all of `/a/b`, and leaves nothing for
the route (`UrlRouting.Router.nested_not_joined`).
-/

namespace UrlRouting

open Regex

/-- Without binders, clean values are bound values. -/
theorem Tree.exists_bindParams {t : Tree} {id : NodeId} (h : ∀ name, t.binderIn? id name = none)
    (clean : Params) : ∃ params, t.bindParams id clean = .ok params := by
  rw [bindParams]
  generalize Params.empty = bound
  induction clean.entries generalizing bound with
  | nil => exact ⟨bound, rfl⟩
  | cons entry entries ih =>
    obtain ⟨name, v⟩ := entry
    obtain ⟨params, hparams⟩ := ih (bound.insert name v)
    refine ⟨params, ?_⟩
    rw [bindEntries, bindValue, h]
    exact hparams

namespace Router

variable {options : Options} {first second schema : String} {action : Action}
  {method : Option Method} {path : String}

/-- The clean values of the match of a path, if there is one. -/
def cleanValues? (r : Router) (method : Option Method) (path : String) : Option Params :=
  (r.findMatch path method).outcome.toOption.map (·.2.clean)

theorem cleanValues?_eq {r : Router} {found : Option (NodeId × RouteMatch)}
    (h : (r.tree.matchIn r.view method r.tree.nodes Tree.root path).outcome = .ok found) :
    r.cleanValues? method path = found.map (·.2.clean) := by
  rw [← Tree.match?_eq_matchIn] at h
  rw [cleanValues?, findMatch, Consult.bind_of_ok h]
  cases found <;> rfl

/-! ### Routers with one route -/

/-- The node of a route without a name, for all methods. -/
def routeNode (id parent : NodeId) (schema : String) (action : Action) : Node :=
  { id, parent := some parent, schema, name := none, kind := .route none action }

/-- The node of a group without a prefix. -/
def groupNode (id parent : NodeId) (schema : String) : Node :=
  { id, parent := some parent, schema, name := none, kind := .group none }

/-- **What a router with one route finds.** -/
theorem ofRoute_cleanValues? {c : CompiledNode}
    (h : (ofRoute options schema action).view 1 = .ok c) :
    (ofRoute options schema action).cleanValues? method path =
      (c.matcher.bind (·.captures? path)).bind c.schema.clean? := by
  have hin : (routeNode 1 0 schema action).isIn Tree.root = true := rfl
  have hbind (clean : Params) :
      ∃ params, (ofRoute options schema action).tree.bindParams 1 clean = .ok params :=
    Tree.exists_bindParams (fun _ => rfl) clean
  obtain ⟨found, hfound, hvalues⟩ :=
    Tree.matchIn_route_clean path hin rfl (.inl (rfl : none = none)) h hbind
  exact (cleanValues?_eq hfound).trans hvalues

/-- **What a router with one group and a route in it finds.** -/
theorem ofGroup_cleanValues? {o i : CompiledNode}
    (ho : (ofGroup options first second action).view 1 = .ok o)
    (hi : (ofGroup options first second action).view 2 = .ok i) :
    (ofGroup options first second action).cleanValues? method path =
      (o.matcher.bind (·.captures? path)).bind fun trail =>
        ((i.matcher.bind (·.captures? ((trail.text? restName).getD ""))).bind i.schema.clean?).bind
          fun inner => (o.schema.clean? trail).map inner.underlay := by
  have hgroup : (groupNode 1 0 first).isIn Tree.root = true := rfl
  have hroute : (routeNode 2 1 second action).isIn 1 = true := rfl
  have hlater : ∀ n ∈ [routeNode 2 1 second action], n.isIn Tree.root = false :=
    fun n hn => List.mem_singleton.mp hn ▸ rfl
  have hbind (clean : Params) :
      ∃ params, (ofGroup options first second action).tree.bindParams 1 clean = .ok params :=
    Tree.exists_bindParams (fun _ => rfl) clean
  have hbind' (clean : Params) :
      ∃ params, (ofGroup options first second action).tree.bindParams 2 clean = .ok params :=
    Tree.exists_bindParams (fun _ => rfl) clean
  obtain ⟨found, hfound, hvalues⟩ := Tree.matchIn_group_clean path hgroup rfl hlater ho hbind
    fun rest => Tree.matchIn_route_clean rest hroute rfl (.inl (rfl : none = none)) hi hbind'
  exact (cleanValues?_eq hfound).trans hvalues

/-! ### One route for both -/

/-- **A group and the route in it match what both schemas in one match**, as far as the route
matches what the group leaves of the path; and where both match, the parameters have the same clean
values. -/
theorem nested_iff_joined {o i j : CompiledNode} (method : Option Method) (hslash : second.toList.head? = some '/')
    (ho : (ofGroup options first second action).view 1 = .ok o)
    (hi : (ofGroup options first second action).view 2 = .ok i)
    (hj : (ofRoute options (first ++ second) action).view 1 = .ok j)
    (halone : ∀ spec ∈ j.schema.params, (Syntax.read? spec.pattern).isSome)
    (hline : '\n' ∉ path.toList) :
    (((ofGroup options first second action).cleanValues? method path).isSome ↔
      ((ofRoute options (first ++ second) action).cleanValues? method path).isSome ∧
        ∃ rest, (ofGroup options first second action).handed? 1 path = some rest ∧
          ((ofRoute options second action).cleanValues? method rest).isSome) ∧
    ∀ nested joined, (ofGroup options first second action).cleanValues? method path = some nested →
      (ofRoute options (first ++ second) action).cleanValues? method path = some joined →
        ∀ name, nested.get? name = joined.get? name := by
  have hroute (rest : String) : (ofRoute options second action).cleanValues? method rest =
      (i.matcher.bind (·.captures? rest)).bind i.schema.clean? := ofRoute_cleanValues? hi
  have hhanded : (ofGroup options first second action).handed? 1 path =
      (o.matcher.bind (·.captures? path)).bind (Trail.text? restName) := by rw [handed?, ho]
  rw [ofGroup_cleanValues? ho hi, ofRoute_cleanValues? hj, hhanded]
  cases hgroup : o.matcher.bind (·.captures? path) with
  | none => simp
  | some trail =>
    have hparams := Node.params_joined rfl rfl rfl rfl hslash ho hi hj
    have hgalone : ∀ spec ∈ o.schema.params, (Syntax.read? spec.pattern).isSome := fun spec hspec =>
      halone spec (hparams ▸ List.mem_append_left _ hspec)
    -- the group always hands something on, be it empty
    obtain ⟨rest, hrest, -⟩ := Node.exists_handed rfl ho hgalone hgroup
    simp only [Option.bind_some, hrest, Option.getD_some, Option.some.injEq, exists_eq_left', hroute]
    cases hinside : i.matcher.bind (·.captures? rest) with
    | none => simp
    | some route =>
      obtain ⟨both, hboth, hsome, hvalues⟩ := Node.captures?_joined rfl rfl rfl rfl hslash ho hi hj
        halone hline hgroup (by rwa [hrest])
      simp only [hboth, Option.bind_some]
      constructor
      · rw [hsome]
        cases i.schema.clean? route <;> cases o.schema.clean? trail <;> simp
      · rintro nested joined hnested hjoined name
        obtain ⟨inner, hinner, hnested⟩ := Option.bind_eq_some_iff.mp hnested
        obtain ⟨outer, houter, rfl⟩ := Option.map_eq_some_iff.mp hnested
        exact hvalues outer inner joined houter hinner hjoined name

set_option maxRecDepth 4000 in
theorem nested_iff_joined_id : ∃ nested joined,
    (ofGroup {} "/\x7bid#int\x7d" "/edit" (.identifier "")).cleanValues? none "/7/edit" = some nested ∧
    (ofRoute {} ("/\x7bid#int\x7d" ++ "/edit") (.identifier "")).cleanValues? none "/7/edit" =
      some joined ∧
    ∀ name, nested.get? name = joined.get? name := by
  have hok {r : Except SchemaError CompiledNode} (h : r.toOption.isSome) : ∃ c, r = .ok c := by
    cases r with
    | error e => cases h
    | ok c => exact ⟨c, rfl⟩
  obtain ⟨o, ho⟩ : ∃ o, (ofGroup {} "/\x7bid#int\x7d" "/edit" (.identifier "")).view 1 = .ok o :=
    hok (by cbv)
  obtain ⟨i, hi⟩ : ∃ i, (ofGroup {} "/\x7bid#int\x7d" "/edit" (.identifier "")).view 2 = .ok i :=
    hok (by cbv)
  obtain ⟨j, hj⟩ :
      ∃ j, (ofRoute {} ("/\x7bid#int\x7d" ++ "/edit") (.identifier "")).view 1 = .ok j := hok (by cbv)
  have halone : ∀ spec ∈ j.schema.params, (Syntax.read? spec.pattern).isSome := by
    have hall : ((ofRoute {} ("/\x7bid#int\x7d" ++ "/edit") (.identifier "")).view 1).toOption.map
        (fun c => c.schema.params.all fun spec => (Syntax.read? spec.pattern).isSome) =
          some true := by cbv
    rw [hj] at hall
    exact List.all_eq_true.mp (Option.some.inj hall)
  obtain ⟨hiff, hvalues⟩ :=
    nested_iff_joined none rfl ho hi hj halone (show '\n' ∉ "/7/edit".toList by decide)
  have hjoined : ((ofRoute {} ("/\x7bid#int\x7d" ++ "/edit") (.identifier "")).cleanValues? none
      "/7/edit").isSome := by cbv
  obtain ⟨nested, hnested⟩ :=
    Option.isSome_iff_exists.mp (hiff.mpr ⟨hjoined, "/edit", by cbv, by cbv⟩)
  obtain ⟨joined, hjoined⟩ := Option.isSome_iff_exists.mp hjoined
  exact ⟨nested, joined, hnested, hjoined, hvalues nested joined hnested hjoined⟩

set_option maxRecDepth 4000 in
/-- A group that takes more of a path than its route leaves to it: with both schemas in one, the
path matches. -/
theorem nested_not_joined :
    (ofGroup {} "/a[/b]" "/b" (.identifier "")).cleanValues? none "/a/b" = none ∧
      (ofRoute {} ("/a[/b]" ++ "/b") (.identifier "")).cleanValues? none "/a/b" = some .empty := by
  refine ⟨by cbv, by cbv⟩

set_option maxRecDepth 4000 in
/-- What a group leaves is one line, so that a line break in the path may divide it at another
place. -/
example :
    ((ofGroup {} "/\x7ba|[^x]+\x7d" "/\x7bb|[^x]+\x7d" (.identifier "")).findMatch "/u/\n/v"
        none).outcome.toOption.map (·.2.clean) =
        some ⟨[("b", .str "v"), ("a", .str "u/\n")]⟩ ∧
      ((ofRoute {} ("/\x7ba|[^x]+\x7d" ++ "/\x7bb|[^x]+\x7d") (.identifier "")).findMatch
        "/u/\n/v" none).outcome.toOption.map (·.2.clean) =
        some ⟨[("a", .str "u"), ("b", .str "\n/v")]⟩ :=
  ⟨by cbv, by cbv⟩

end Router

end UrlRouting
