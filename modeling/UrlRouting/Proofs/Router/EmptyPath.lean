import Mathlib
import UrlRouting.Proofs.Matching.Omitted
import UrlRouting.Proofs.Router.SoleRoute
import UrlRouting.Proofs.Url.Marks

/-!
# Urls of empty paths

Where nothing is written of a route and of the groups around it, the path is empty, and the url is a
slash. A search knows nothing of that: paths are matched as they are, so it is the empty path that
leads back to the route. The slash leads back only if some schema along the path takes it
(`UrlRouting.Router.empty_path_leads_back`), as a parameter may do that is captured as the empty
text. Otherwise no route is found, and `[/{x}]` is such a schema, whose `x` may be left out with the
slash, but may not be empty behind it (`UrlRouting.Router.slash_is_lost`).

Three more things can get in the way of either path: a group beside the route that does not compile,
a pattern that closes the capture around it, and a default that does not fit its type. Such a default
is written nowhere, and so is never checked, if it stands in a segment that is left out.
-/

namespace UrlRouting

open Regex

/-! ### The nodes of a path -/

namespace Tree

variable {t : Tree} {method : Option Method} {nodes front : List Node} {last : Node}

/-- **Along a path that is empty**, every schema may be left out. -/
theorem WritesPath.isOmissible {params : Params} {accounts : List Account}
    (h : t.WritesPath nodes params accounts) (hempty : Account.pathText accounts = "") :
    ∀ n ∈ nodes, ∃ s, Schema.ofText n.schema = .ok s ∧ s.isOmissible = true := by
  induction h with
  | nil => exact List.forall_mem_nil _
  | cons read own above ih =>
    obtain ⟨habove, hown⟩ := String.append_eq_empty_iff.mp hempty
    exact List.forall_mem_cons.mpr
      ⟨⟨_, read, own.isOmissible (own.text_eq.symm.trans hown)⟩, ih habove⟩

/-- A row that leads to a route is made of groups and the route. -/
theorem Leads.isGroup_or_isRoute {place : NodeId} (h : t.Leads method place nodes) :
    ∀ n ∈ nodes, n.isGroup = true ∨ n.isRoute = true := by
  induction h with
  | route mem isIn kind answers =>
    exact List.forall_mem_singleton.mpr (.inr (by rw [Node.isRoute, kind]))
  | group mem isIn isGroup inside ih => exact List.forall_mem_cons.mpr ⟨.inl isGroup, ih⟩

/-- The path of a route is made of the row that leads to it. -/
theorem Leads.alongPath_eq (hsound : t.IsSound) (h : t.Leads method root (front ++ [last])) :
    alongPath (t.chain last.id) = (front ++ [last]).reverse := by
  obtain ⟨n, hn, hkind, hparent, -⟩ := hsound.atRoot
  have hroot : t.chain root = [n] := by rw [hsound.chain_eq hn, hparent]
  have hends : [n].takeWhile Node.isGroup = [] := List.takeWhile_cons_of_neg (by simp [Node.isGroup, hkind])
  rw [h.chain_eq hsound, hroot, List.reverse_append, List.reverse_singleton, List.append_assoc,
    List.singleton_append, alongPath,
    List.takeWhile_append_of_pos fun g hg => h.isGroup g (List.mem_reverse.mp hg), hends,
    List.append_nil, List.singleton_append]

end Tree

/-! ### One route -/

namespace Router

/-- **A router with a single route**: it has a name, answers to all methods and has neither a host
nor binders for actions. Groups and hidden routes there may be any number of. -/
structure IsSole (r : Router) (name : String) (id : NodeId) : Prop where
  /-- The route has the name. -/
  named : r.tree.find? name = some id
  /-- It answers to all methods. -/
  route : ∃ n action, r.tree.get? id = some n ∧ n.kind = .route none action
  /-- There is no other one. -/
  only : ∀ n ∈ r.tree.nodes, n.isRoute = true → n.id = id
  /-- It has no host. -/
  host : r.tree.host? id = none
  /-- It has no binders for actions. -/
  binders : ∀ param, r.tree.binderIn? id param = none

/-- **Nothing gets in the way of a search for a route.** -/
structure IsSearchable (r : Router) (id : NodeId) : Prop where
  /-- Groups compile. -/
  groups : ∀ g ∈ r.tree.nodes, g.isGroup = true → ∃ c, r.view g.id = .ok c
  /-- Patterns along the path of the route are expressions by themselves. -/
  patterns : ∀ n ∈ Tree.alongPath (r.tree.chain id), ∀ c, r.view n.id = .ok c →
    ∀ spec ∈ c.schema.params, (Syntax.read? spec.pattern).isSome
  /-- Defaults along the path of the route fit their types. -/
  defaults : ∀ n ∈ Tree.alongPath (r.tree.chain id), ∀ c, r.view n.id = .ok c →
    c.schema.DefaultsFit

/-- **A slash is taken along the path of a route**: by the route or a group around it, and the groups
around that one leave it. -/
def TakesSlash (r : Router) (id : NodeId) : Prop :=
  ∃ inner n outer, Tree.alongPath (r.tree.chain id) = inner ++ n :: outer ∧
    r.view.TakesSlash n ∧ ∀ g ∈ outer, r.view.LeavesSlash g

variable {r : Router} {name : String} {id : NodeId} {params left : Params}

/-- The url of an empty path is a slash, if nothing is left for a query. -/
theorem IsSole.url_eq (h : r.IsSole name id)
    (hpath : (r.tree.pathOf r.view (r.tree.chain id) params.given).outcome = .ok ("", left))
    (hleft : left.isEmpty = true) : (r.url name params false).outcome = .ok "/" := by
  have hfront : (r.tree.urlFront r.view r.options id params false).outcome = .ok ("/", left) := by
    rw [Tree.urlFront, Consult.bind_of_ok hpath, Tree.hostSchema?, h.host]
    rfl
  rw [Router.url, h.named, Tree.outcome_url, hfront, Except.map, Form.tail_of_isEmpty hleft,
    String.append_empty]

section EmptyPath

variable (hr : r.Reachable) (hsole : r.IsSole name id)

include hr hsole

/-- The path of the route is made of a row of nodes that leads to it. -/
theorem IsSole.exists_row : ∃ nodes, (∀ method, r.tree.Leads method Tree.root nodes) ∧
    Tree.alongPath (r.tree.chain id) = nodes.reverse := by
  have hsound := hr.isSound.tree
  obtain ⟨n, action, hn, hkind⟩ := hsole.route
  have hnamed := Tree.find?_named hsound name
  rw [hsole.named] at hnamed
  obtain ⟨front, last, rfl, hleadsTo⟩ := (Tree.named_iff hsound).mp hnamed.1
  have hlast : r.tree.get? last.id = some last := hsound.mem_iff.mp hleadsTo.exists_own.1
  obtain rfl : last = n := Option.some.inj (hlast.symm.trans hn)
  have hleads (method : Option Method) : r.tree.Leads method Tree.root (front ++ [last]) :=
    hleadsTo.leads hkind
  exact ⟨front ++ [last], hleads, (hleads none).alongPath_eq hsound⟩

variable (hsearchable : r.IsSearchable id)
  (hpath : (r.tree.pathOf r.view (r.tree.chain id) params.given).outcome = .ok ("", left))

include hsearchable hpath

/-- Groups compile, and so does the route, as its path has been written. -/
theorem IsSearchable.compiles : ∀ n ∈ r.tree.nodes, n.isGroup = true ∨ n.isRoute = true →
    ∃ c, r.view n.id = .ok c := by
  rintro n hn (hgroup | hroute)
  · exact hsearchable.groups n hn hgroup
  · have hid := hsole.only n hn hroute
    have hchain := hr.isSound.tree.chain_eq (hr.isSound.tree.mem_iff.mp hn)
    rw [hid] at hchain
    rw [hchain, Tree.pathOf] at hpath
    obtain ⟨c, hc, -⟩ := Consult.bind_eq_ok.mp hpath
    exact ⟨c, Consult.node_eq_ok.mp hc⟩

/-- **Along an empty path, paths are let through.** -/
theorem IsSearchable.letsThrough :
    ∀ n ∈ Tree.alongPath (r.tree.chain id), r.view.LetsThrough n := by
  intro n hn
  have hsound := hr.isSound
  obtain ⟨accounts, hwrites, hempty⟩ :=
    Tree.exists_writesPath (hsound.chain_ne_nil hsole.named) hsound.view_chain hpath
  obtain ⟨s, hs, homissible⟩ := hwrites.isOmissible hempty.symm n hn
  obtain ⟨nodes, hleads, halong⟩ := hsole.exists_row hr
  have hmem : n ∈ nodes := List.mem_reverse.mp (halong ▸ hn)
  have hkind := (hleads none).isGroup_or_isRoute n hmem
  have htree := (hleads none).mem n hmem
  obtain ⟨c, hc⟩ := hsearchable.compiles hr hsole hpath n htree hkind
  obtain ⟨ctx, -, hview⟩ := hsound.view_eq (hsound.tree.mem_iff.mp htree)
  exact Node.letsThrough (hview.symm.trans hc) hs (hsearchable.patterns n hn c hc) homissible hkind
    hview (hsearchable.defaults n hn c hc)

end EmptyPath

/-- **An empty path leads back to its route**, and the slash that stands for it in the url does so
just if it is taken along the path. Otherwise no route is found. -/
theorem empty_path_leads_back (hr : r.Reachable) (hsole : r.IsSole name id)
    (hsearchable : r.IsSearchable id)
    (hpath : (r.tree.pathOf r.view (r.tree.chain id) params.given).outcome = .ok ("", left))
    (hleft : left.isEmpty = true) (method : Option Method) :
    (r.url name params false).outcome = .ok "/" ∧
      (∃ m, (r.findMatch "" method).outcome = .ok (id, m)) ∧
      ((∃ m, (r.findMatch "/" method).outcome = .ok (id, m)) ↔ r.TakesSlash id) ∧
      (¬r.TakesSlash id →
        (r.findMatch "/" method).outcome = .error (.routeNotFound method "/")) := by
  obtain ⟨nodes, hleads, halong⟩ := hsole.exists_row hr
  have hcompiles := hsearchable.compiles hr hsole hpath
  have hthrough : ∀ n ∈ nodes, r.view.LetsThrough n := fun n hn =>
    hsearchable.letsThrough hr hsole hpath n (halong ▸ List.mem_reverse.mpr hn)
  have hfinds := findMatch_of_sole hr hsole.only hcompiles hsole.binders (hleads method)
  have hslash : r.view.Matches nodes "/" ↔ r.TakesSlash id := by
    rw [(hleads method).matches_slash_iff hthrough, TakesSlash, halong]
    constructor
    · rintro ⟨outer, n, inner, rfl, houter, hn⟩
      exact ⟨inner.reverse, n, outer.reverse, by simp, hn, fun g hg => houter g (List.mem_reverse.mp hg)⟩
    · rintro ⟨inner, n, outer, hnodes, hn, houter⟩
      refine ⟨outer.reverse, n, inner.reverse, ?_, fun g hg => houter g (List.mem_reverse.mp hg), hn⟩
      rw [← nodes.reverse_reverse, hnodes]
      simp
  obtain ⟨hfound, hmissed⟩ := hfinds "/"
  rw [hslash] at hfound hmissed
  exact ⟨hsole.url_eq hpath hleft, (hfinds "").1.mpr ((hleads method).matches_empty hthrough), hfound,
    hmissed⟩

/-- A route in a group, with schemas that are each one segment. The group may be empty behind its
slash. -/
def pageInLanguage : Router :=
  ((new {}).runAll [.group "[/\x7blang|[a-z]*\x7d]" none
    (.step false (.route "[/\x7bpage\x7d]" (some "page") none (.identifier "") []) .done)]).1

/-- A node that compiles, with patterns that are expressions by themselves, and without defaults. -/
theorem exists_view (r : Router) (id : NodeId) (h : (r.view id).toOption.map
      (fun c => c.schema.params.all fun spec =>
        (Syntax.read? spec.pattern).isSome && spec.default.isNone) = some true) :
    ∃ c, r.view id = .ok c ∧
      (∀ spec ∈ c.schema.params, (Syntax.read? spec.pattern).isSome) ∧ c.schema.DefaultsFit := by
  cases hview : r.view id with
  | error e =>
    rw [hview] at h
    cases h
  | ok c =>
    rw [hview] at h
    have hall := List.all_eq_true.mp (Option.some.inj h)
    refine ⟨c, rfl, fun spec hspec => (Bool.and_eq_true_iff.mp (hall spec hspec)).1, ?_⟩
    intro spec hspec type text _ hdefault
    have hnone := (Bool.and_eq_true_iff.mp (hall spec hspec)).2
    rw [hdefault] at hnone
    cases hnone

set_option maxRecDepth 4000 in
/-- The group takes the slash, and its language is null. -/
theorem empty_path_leads_back_in_group :
    pageInLanguage.Reachable ∧ pageInLanguage.IsSole "page" 2 ∧ pageInLanguage.IsSearchable 2 ∧
      (pageInLanguage.tree.pathOf pageInLanguage.view (pageInLanguage.tree.chain 2)
        Params.empty.given).outcome = .ok ("", .empty) ∧
      (pageInLanguage.url "page" .empty false).outcome = .ok "/" ∧
      pageInLanguage.TakesSlash 2 ∧
      ∃ m, (pageInLanguage.findMatch "" none).outcome = .ok (2, m) := by
  have hr : pageInLanguage.Reachable := ⟨{}, _, rfl⟩
  have hsole : pageInLanguage.IsSole "page" 2 :=
    ⟨by rfl, ⟨_, _, rfl, rfl⟩, by decide, rfl, fun _ => rfl⟩
  have hpath : (pageInLanguage.tree.pathOf pageInLanguage.view (pageInLanguage.tree.chain 2)
      Params.empty.given).outcome = .ok ("", .empty) := by cbv
  obtain ⟨group, hgroup, hgroupPatterns, hgroupDefaults⟩ :=
    exists_view pageInLanguage 1 (by cbv)
  obtain ⟨route, hroute, hroutePatterns, hrouteDefaults⟩ :=
    exists_view pageInLanguage 2 (by cbv)
  have hgroups : ∀ g ∈ pageInLanguage.tree.nodes, g.isGroup = true →
      ∃ c, pageInLanguage.view g.id = .ok c := by
    refine List.forall_mem_cons.mpr ⟨fun h => absurd h Bool.false_ne_true, ?_⟩
    exact List.forall_mem_cons.mpr ⟨fun _ => ⟨group, hgroup⟩,
      List.forall_mem_singleton.mpr fun h => absurd h Bool.false_ne_true⟩
  have hgroupOnly (c : CompiledNode) (hc : pageInLanguage.view 1 = .ok c) : c = group :=
    Except.ok.inj (hc.symm.trans hgroup)
  have hrouteOnly (c : CompiledNode) (hc : pageInLanguage.view 2 = .ok c) : c = route :=
    Except.ok.inj (hc.symm.trans hroute)
  have hsearchable : pageInLanguage.IsSearchable 2 := by
    refine ⟨hgroups, ?_, ?_⟩
    · exact List.forall_mem_cons.mpr ⟨fun c hc => hrouteOnly c hc ▸ hroutePatterns,
        List.forall_mem_singleton.mpr fun c hc => hgroupOnly c hc ▸ hgroupPatterns⟩
    · exact List.forall_mem_cons.mpr ⟨fun c hc => hrouteOnly c hc ▸ hrouteDefaults,
        List.forall_mem_singleton.mpr fun c hc => hgroupOnly c hc ▸ hgroupDefaults⟩
  obtain ⟨hurl, hempty, hslash, -⟩ := empty_path_leads_back hr hsole hsearchable hpath rfl none
  refine ⟨hr, hsole, hsearchable, hpath, hurl, hslash.mp ?_, hempty⟩
  -- that the slash is taken is seen from what is found
  have hfound : (pageInLanguage.findMatch "/" none).outcome.toOption.map (·.1) = some 2 := by cbv
  cases houtcome : (pageInLanguage.findMatch "/" none).outcome with
  | error e =>
    rw [houtcome] at hfound
    cases hfound
  | ok found =>
    obtain ⟨id, m⟩ := found
    rw [houtcome] at hfound
    obtain rfl : id = 2 := Option.some.inj hfound
    exact ⟨m, rfl⟩

/-- **The slash of an empty path does not lead back to the route.** -/
def LosesSlash (r : Router) (name : String) (id : NodeId) : Prop :=
  r.Reachable ∧ r.IsSole name id ∧
    (r.tree.pathOf r.view (r.tree.chain id) Params.empty.given).outcome = .ok ("", .empty) ∧
    (r.url name .empty false).outcome = .ok "/" ∧
    ∀ m, (r.findMatch "/" none).outcome ≠ .ok (id, m)

theorem LosesSlash.of_sole (hr : r.Reachable) (hsole : r.IsSole name id)
    (hpath : (r.tree.pathOf r.view (r.tree.chain id) Params.empty.given).outcome = .ok ("", .empty))
    (hlost : (r.findMatch "/" none).outcome.toOption.map (·.1) = none) :
    r.LosesSlash name id := by
  refine ⟨hr, hsole, hpath, hsole.url_eq hpath rfl, fun m hm => ?_⟩
  rw [hm] at hlost
  cases hlost

/-- A router with one route. -/
def ofPage (schema : String) : Router :=
  ((new {}).runAll [.route schema (some "page") none (.identifier "")]).1

theorem reachable_ofPage (schema : String) : (ofPage schema).Reachable := ⟨{}, _, rfl⟩

theorem isSole_ofPage (schema : String) : (ofPage schema).IsSole "page" 1 := by
  refine ⟨by rfl, ⟨_, _, rfl, rfl⟩, ?_, rfl, fun _ => rfl⟩
  exact List.forall_mem_cons.mpr ⟨fun h => absurd h Bool.false_ne_true,
    List.forall_mem_singleton.mpr fun _ => rfl⟩

/-- A router with a group that does not compile in front of the route. -/
def behindBroken : Router :=
  ((new {}).runAll [.group "\x7b" none .done, .group "" none
    (.step false (.route "[/\x7bpage|.*\x7d]" (some "page") none (.identifier "") []) .done)]).1

theorem reachable_behindBroken : behindBroken.Reachable := ⟨{}, _, rfl⟩

theorem isSole_behindBroken : behindBroken.IsSole "page" 3 :=
  ⟨by rfl, ⟨_, _, rfl, rfl⟩, by decide, rfl, fun _ => rfl⟩

set_option maxRecDepth 4000 in
/-- No schema takes the slash: `page` may not be empty. -/
theorem losesSlash_required : (ofPage "[/\x7bpage\x7d]").LosesSlash "page" 1 :=
  .of_sole (reachable_ofPage _) (isSole_ofPage _) (by cbv) (by cbv)

set_option maxRecDepth 4000 in
/-- A group in front of the route does not compile. -/
theorem losesSlash_behindBroken : behindBroken.LosesSlash "page" 3 :=
  .of_sole reachable_behindBroken isSole_behindBroken (by cbv) (by cbv)

set_option maxRecDepth 4000 in
/-- A default does not fit its type. -/
theorem losesSlash_default :
    (ofPage "[/\x7bpage|.*\x7d][\x7bsize:all#int\x7d\x7bunit\x7d]").LosesSlash "page" 1 :=
  .of_sole (reachable_ofPage _) (isSole_ofPage _) (by cbv) (by cbv)

set_option maxRecDepth 4000 in
/-- A pattern closes the capture around it. -/
theorem losesSlash_pattern :
    (ofPage "[/\x7bpage|.*\x7d]\x7bunit|a)(b\x7d?").LosesSlash "page" 1 :=
  .of_sole (reachable_ofPage _) (isSole_ofPage _) (by cbv) (by cbv)

/-- **A slash may be lost in four ways**: no schema takes it; a group in front of the route does not
compile; a default does not fit its type; a pattern closes the capture around it. -/
theorem slash_is_lost :
    (ofPage "[/\x7bpage\x7d]").LosesSlash "page" 1 ∧ behindBroken.LosesSlash "page" 3 ∧
      (ofPage "[/\x7bpage|.*\x7d][\x7bsize:all#int\x7d\x7bunit\x7d]").LosesSlash "page" 1 ∧
      (ofPage "[/\x7bpage|.*\x7d]\x7bunit|a)(b\x7d?").LosesSlash "page" 1 :=
  ⟨losesSlash_required, losesSlash_behindBroken, losesSlash_default, losesSlash_pattern⟩

end Router

end UrlRouting
