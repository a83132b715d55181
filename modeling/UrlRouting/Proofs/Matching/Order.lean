import UrlRouting.Proofs.Matching.Search
import UrlRouting.Proofs.Tree.Sound

/-!
# The order of a search

Which routes may match a path at all, and which of them comes first, can be said without following
the search. A *candidate* is a row of nodes, groups from the outside in and a route that answers to
the method (`UrlRouting.Tree.Leads`). Candidates are ordered like words in a dictionary, node by
node: routes for all methods come before routes for one, these before groups, and within each of the
three what was registered first comes first (`UrlRouting.Node.Before`).

The search finds the first candidate that matches, and its match is that of the hits along it; if it
finds nothing, then no candidate matches (`UrlRouting.Tree.matchIn_answers`). The induction is on
the list of nodes that are still to be gone through: what stands in a group comes behind it in that
list.
-/

namespace UrlRouting

open Regex

/-! ### Candidates and their order -/

/-- **The nodes lead to a route** from a place: groups, from the outside in, and a route that
answers to the method, each standing in the one in front of it. -/
inductive Tree.Leads (t : Tree) (method : Option Method) : NodeId → List Node → Prop
  /-- A route in the place, for all methods or for the given one. -/
  | route {place : NodeId} {n : Node} {own : Option Method} {action : Action} (mem : n ∈ t.nodes)
      (isIn : n.isIn place = true) (kind : n.kind = .route own action)
      (answers : own = none ∨ own = method) : Leads t method place [n]
  /-- A group in the place, and what leads on from it. -/
  | group {place : NodeId} {g : Node} {nodes : List Node} (mem : g ∈ t.nodes)
      (isIn : g.isIn place = true) (isGroup : g.isGroup = true)
      (inside : Leads t method g.id nodes) : Leads t method place (g :: nodes)

/-- When a node has its turn among those of one place: routes for all methods, routes for one
method, groups. -/
def Node.turn (n : Node) : Nat :=
  match n.kind with
  | .route none _ => 0
  | .route (some _) _ => 1
  | _ => 2

/-- **One node of a place is searched before another one.** -/
def Node.Before (n m : Node) : Prop := n.turn < m.turn ∨ n.turn = m.turn ∧ n.id < m.id

/-- **One candidate is searched before another one**: at the first node where they part, its own
node is. -/
abbrev SearchedBefore (nodes nodes' : List Node) : Prop := List.Lex Node.Before nodes nodes'

/-! ### Facts about them -/

section

variable {t : Tree} {method : Option Method} {place : NodeId} {n m : Node} {nodes : List Node}

theorem Node.turn_of_isGroup (h : n.isGroup = true) : n.turn = 2 := by
  rw [isGroup] at h
  rw [turn]
  split at h
  · next hk => rw [hk]
  · cases h

theorem Node.Before.irrefl (h : n.Before n) : False := by
  rcases h with h | ⟨-, h⟩ <;> exact Nat.lt_irrefl _ h

theorem Node.Before.asymm (h : n.Before m) (h' : m.Before n) : False := by
  rcases h with h | ⟨h, hid⟩ <;> rcases h' with h' | ⟨h', hid'⟩
  · exact Nat.lt_asymm h h'
  · exact Nat.lt_irrefl _ (h' ▸ h)
  · exact Nat.lt_irrefl _ (h ▸ h')
  · exact Nat.lt_asymm hid hid'

theorem Node.isRoute_of_answersTo (h : n.answersTo method = true) :
    ∃ action, n.kind = .route method action := by
  rw [answersTo] at h
  split at h
  · next own action hk => exact ⟨action, hk.trans (by rw [beq_iff_eq.mp h])⟩
  · cases h

theorem Node.answersTo_of_kind {own : Option Method} {action : Action}
    (h : n.kind = .route own action) : n.answersTo method = (own == method) := by
  rw [answersTo, h]

namespace Tree

theorem Leads.ne_nil (h : t.Leads method place nodes) : nodes ≠ [] := by
  cases h <;> exact List.cons_ne_nil _ _

/-- **The routes that a level tries**: those in the place that answer to the method. -/
theorem mem_candidates_iff : n ∈ candidates nodes place method ↔
    n ∈ nodes ∧ n.isIn place = true ∧
      ∃ own action, n.kind = .route own action ∧ (own = none ∨ own = method) := by
  have hpart (own : Option Method) :
      (n ∈ nodes.filter fun n => n.isIn place && n.answersTo own) ↔
        n ∈ nodes ∧ n.isIn place = true ∧ ∃ action, n.kind = .route own action := by
    rw [List.mem_filter, Bool.and_eq_true]
    refine and_congr_right' (and_congr_right' ⟨Node.isRoute_of_answersTo, ?_⟩)
    rintro ⟨action, hk⟩
    rw [Node.answersTo_of_kind hk]
    exact beq_self_eq_true own
  rw [candidates.eq_def, List.mem_append, hpart none]
  constructor
  · rintro (⟨hn, hin, action, hk⟩ | hn)
    · exact ⟨hn, hin, none, action, hk, .inl rfl⟩
    · cases method with
      | none => cases hn
      | some m =>
        obtain ⟨hn, hin, action, hk⟩ := (hpart (some m)).mp hn
        exact ⟨hn, hin, some m, action, hk, .inr rfl⟩
  · rintro ⟨hn, hin, own, action, hk, rfl | rfl⟩
    · exact .inl ⟨hn, hin, action, hk⟩
    · cases own with
      | none => exact .inl ⟨hn, hin, action, hk⟩
      | some m => exact .inr ((hpart (some m)).mpr ⟨hn, hin, action, hk⟩)

/-- **The routes of a level are tried in their order.** -/
theorem pairwise_candidates (h : nodes.Pairwise (·.id < ·.id)) :
    (candidates nodes place method).Pairwise Node.Before := by
  have hpart (own : Option Method) :
      (nodes.filter fun n => n.isIn place && n.answersTo own).Pairwise Node.Before := by
    refine List.Pairwise.imp_of_mem (fun {n m} hn hm hlt => .inr ⟨?_, hlt⟩)
      (h.sublist List.filter_sublist)
    obtain ⟨_, hn⟩ := Node.isRoute_of_answersTo (Bool.and_eq_true_iff.mp (List.mem_filter.mp hn).2).2
    obtain ⟨_, hm⟩ := Node.isRoute_of_answersTo (Bool.and_eq_true_iff.mp (List.mem_filter.mp hm).2).2
    cases own <;> rw [Node.turn, Node.turn, hn, hm]
  cases method with
  | none =>
    rw [candidates, List.append_nil]
    exact hpart none
  | some method =>
    refine List.pairwise_append.mpr ⟨hpart none, hpart (some method), fun n hn m hm => .inl ?_⟩
    obtain ⟨_, hn⟩ := Node.isRoute_of_answersTo (Bool.and_eq_true_iff.mp (List.mem_filter.mp hn).2).2
    obtain ⟨_, hm⟩ := Node.isRoute_of_answersTo (Bool.and_eq_true_iff.mp (List.mem_filter.mp hm).2).2
    rw [Node.turn, Node.turn, hn, hm]
    exact Nat.zero_lt_one

/-! ### The chain of a candidate -/

theorem Leads.descends (h : t.Leads method place nodes) : t.Descends place nodes := by
  induction h with
  | route mem isIn kind answers => exact ⟨mem, isIn, trivial⟩
  | group mem isIn isGroup inside ih => exact ⟨mem, isIn, ih⟩

/-- **The chain of a route is the candidate that leads to it**, seen from the route upwards. -/
theorem Leads.chain_eq (h : t.IsSound) (hleads : t.Leads method place (nodes ++ [n])) :
    t.chain n.id = (nodes ++ [n]).reverse ++ t.chain place :=
  hleads.descends.chain_eq h

end Tree

end

/-! ### What is found -/

namespace Tree

variable {t : Tree} {view : View} {method : Option Method} {path : String}

/-- **An answer about some candidates**: the first of them that matches, with its match, or nothing
if none of them matches. -/
def Answers (t : Tree) (view : View) (path : String) (among : List Node → Prop) :
    Option (NodeId × RouteMatch) → Prop
  | none => ∀ nodes, among nodes → ¬view.Matches nodes path
  | some (id, m) => ∃ hits last, view.Walk (hits ++ [last]) path ∧ last.node.id = id ∧
      t.Assembles (hits ++ [last]) m ∧ among ((hits ++ [last]).map (·.node)) ∧
      ∀ nodes, among nodes → SearchedBefore nodes ((hits ++ [last]).map (·.node)) →
        ¬view.Matches nodes path

section Combining

variable {front back among : List Node → Prop} {answer : Option (NodeId × RouteMatch)}

theorem Answers.congr (h : t.Answers view path front answer) (hsame : ∀ nodes, front nodes ↔ among nodes) :
    t.Answers view path among answer := by
  obtain rfl : front = among := funext fun nodes => propext (hsame nodes)
  exact h

/-- If nothing in front matches, the answer is about what follows. -/
theorem Answers.append (hfront : ∀ nodes, front nodes → ¬view.Matches nodes path)
    (h : t.Answers view path back answer) :
    t.Answers view path (fun nodes => front nodes ∨ back nodes) answer := by
  cases answer with
  | none => exact fun nodes hnodes => hnodes.elim (hfront nodes) (h nodes)
  | some found =>
    obtain ⟨hits, last, hwalk, hid, hmatch, hamong, hfirst⟩ := h
    refine ⟨hits, last, hwalk, hid, hmatch, .inr hamong, fun nodes hnodes hbefore => ?_⟩
    exact hnodes.elim (hfront nodes) fun hback => hfirst nodes hback hbefore

/-- What is found in front does not depend on what follows. -/
theorem Answers.append_left {found : NodeId × RouteMatch}
    (h : t.Answers view path front (some found))
    (hback : ∀ nodes nodes', front nodes → back nodes' → ¬SearchedBefore nodes' nodes) :
    t.Answers view path (fun nodes => front nodes ∨ back nodes) (some found) := by
  obtain ⟨hits, last, hwalk, hid, hmatch, hamong, hfirst⟩ := h
  refine ⟨hits, last, hwalk, hid, hmatch, .inl hamong, fun nodes hnodes hbefore => ?_⟩
  rcases hnodes with hnodes | hnodes
  · exact hfirst nodes hnodes hbefore
  · exact absurd hbefore (hback _ nodes hamong hnodes)

end Combining

/-! ### Routes -/

/-- **The routes of a level** are answered for. -/
theorem matchFirst_answers {nodes : List Node} (hpairwise : nodes.Pairwise Node.Before)
    {answer : Option (NodeId × RouteMatch)}
    (h : (t.matchFirst view path nodes).outcome = .ok answer) :
    t.Answers view path (fun ns => ∃ n ∈ nodes, ns = [n]) answer := by
  cases answer with
  | none =>
    rintro ns ⟨n, hn, rfl⟩
    exact not_matches_of_matchFirst h n hn
  | some found =>
    obtain ⟨id, m⟩ := found
    obtain ⟨earlier, later, hit, rfl, hid, rfl, hvalid, hmatch, hearlier⟩ := matchFirst_eq_some h
    refine ⟨[], hit, .route hvalid, hid, hmatch,
      ⟨hit.node, List.mem_append_right _ List.mem_cons_self, rfl⟩, ?_⟩
    rintro ns ⟨n, hn, rfl⟩ hbefore
    obtain ⟨-, hbehind, -⟩ := List.pairwise_append.mp hpairwise
    have hbefore : n.Before hit.node := by
      cases hbefore with
      | rel h => exact h
      | cons h => cases h
    rcases List.mem_append.mp hn with hn | hn
    · exact hearlier n hn
    · rcases List.mem_cons.mp hn with rfl | hn
      · exact absurd hbefore fun h => h.irrefl
      · exact absurd hbefore ((List.pairwise_cons.mp hbehind).1 n hn).asymm

/-! ### Groups -/

/-- **The candidates through a group.** -/
def Behind (t : Tree) (method : Option Method) (g : Node) (ns : List Node) : Prop :=
  ∃ inner, t.Leads method g.id inner ∧ ns = g :: inner

/-- **The candidates through the groups** of a place among some nodes. -/
def Through (t : Tree) (method : Option Method) (nodes : List Node) (place : NodeId)
    (ns : List Node) : Prop :=
  ∃ g ∈ nodes, g.isIn place = true ∧ g.isGroup = true ∧ t.Behind method g ns

section Groups

variable {place : NodeId} {n : Node} {nodes later ns ns' : List Node}

/-- What leads on from a place: its routes and what goes through its groups, as far as these are
among some nodes. -/
theorem leads_iff (hsub : nodes ⊆ t.nodes)
    (hall : ∀ n ∈ t.nodes, n.isIn place = true → n ∈ nodes) :
    ((∃ n ∈ candidates nodes place method, ns = [n]) ∨ t.Through method nodes place ns) ↔
      t.Leads method place ns := by
  constructor
  · rintro (⟨n, hn, rfl⟩ | ⟨g, hg, hin, hgroup, inner, hinside, rfl⟩)
    · obtain ⟨hn, hin, own, action, hk, hanswers⟩ := mem_candidates_iff.mp hn
      exact .route (hsub hn) hin hk hanswers
    · exact .group (hsub hg) hin hgroup hinside
  · intro h
    cases h with
    | route mem isIn kind answers =>
      exact .inl ⟨_, mem_candidates_iff.mpr ⟨hall _ mem isIn, isIn, _, _, kind, answers⟩, rfl⟩
    | group mem isIn isGroup inside =>
      exact .inr ⟨_, hall _ mem isIn, isIn, isGroup, _, inside, rfl⟩

theorem through_cons_iff (h : (n.isGroup && n.isIn place) = true) :
    (t.Behind method n ns ∨ t.Through method later place ns) ↔
      t.Through method (n :: later) place ns := by
  obtain ⟨hgroup, hin⟩ := Bool.and_eq_true_iff.mp h
  constructor
  · rintro (hbehind | ⟨g, hg, hrest⟩)
    · exact ⟨n, List.mem_cons_self, hin, hgroup, hbehind⟩
    · exact ⟨g, List.mem_cons_of_mem n hg, hrest⟩
  · rintro ⟨g, hg, hin, hgroup, hbehind⟩
    rcases List.mem_cons.mp hg with rfl | hg
    · exact .inl hbehind
    · exact .inr ⟨g, hg, hin, hgroup, hbehind⟩

theorem through_cons_of_skip (h : (n.isGroup && n.isIn place) = false) :
    t.Through method later place ns ↔ t.Through method (n :: later) place ns := by
  constructor
  · rintro ⟨g, hg, hrest⟩
    exact ⟨g, List.mem_cons_of_mem n hg, hrest⟩
  · rintro ⟨g, hg, hin, hgroup, hrest⟩
    rcases List.mem_cons.mp hg with rfl | hg
    · rw [hin, hgroup] at h
      cases h
    · exact ⟨g, hg, hin, hgroup, hrest⟩

/-- The routes of a place come before its groups. -/
theorem not_searchedBefore_routes (h : ∃ n ∈ candidates nodes place method, ns = [n])
    (h' : t.Through method later place ns') : ¬SearchedBefore ns' ns := by
  obtain ⟨n, hn, rfl⟩ := h
  obtain ⟨g, -, -, hgroup, inner, -, rfl⟩ := h'
  obtain ⟨-, -, own, action, hk, -⟩ := mem_candidates_iff.mp hn
  have hturn : n.turn < 2 := by
    rw [Node.turn, hk]
    cases own with
    | none => exact Nat.zero_lt_two
    | some m => exact Nat.one_lt_two
  intro hbefore
  cases hbefore with
  | rel h =>
    rw [Node.Before, Node.turn_of_isGroup hgroup] at h
    omega
  | cons h => cases h

/-- A group comes before groups with greater numbers. -/
theorem not_searchedBefore_group (hgroup : n.isGroup = true) (hlater : ∀ m ∈ later, n.id < m.id)
    (h : t.Behind method n ns) (h' : t.Through method later place ns') :
    ¬SearchedBefore ns' ns := by
  obtain ⟨inner, -, rfl⟩ := h
  obtain ⟨g, hg, -, hgroup', inner', -, rfl⟩ := h'
  have hlt : n.id < g.id := hlater g hg
  intro hbefore
  cases hbefore with
  | rel h =>
    rw [Node.Before, Node.turn_of_isGroup hgroup, Node.turn_of_isGroup hgroup'] at h
    rcases h with h | ⟨-, h⟩
    · exact Nat.lt_irrefl _ h
    · exact Nat.lt_asymm h hlt
  | cons h => exact Nat.lt_irrefl _ hlt

/-! ### One group -/

variable {compiled : CompiledNode} {trail : Trail}

/-- A group whose expression does not match is on the way of no candidate that matches. -/
theorem not_matches_of_captures (hcompiled : view n.id = .ok compiled)
    (htrail : compiled.matcher.bind (·.captures? path) = none) (h : t.Behind method n ns) :
    ¬view.Matches ns path := by
  obtain ⟨inner, hinner, rfl⟩ := h
  intro hmatches
  obtain ⟨hit, rfl, rfl, hvalid, -⟩ := (View.matches_cons hinner.ne_nil).mp hmatches
  have hsame : hit.compiled = compiled := Except.ok.inj (hvalid.compiles.symm.trans hcompiled)
  rw [← hsame, hvalid.captures] at htrail
  cases htrail

/-- **A candidate through a group matches** just if the values of the group fit, and what stands in
it matches what it hands on. -/
theorem matches_behind (hcompiled : view n.id = .ok compiled)
    (htrail : compiled.matcher.bind (·.captures? path) = some trail) (hne : nodes ≠ []) :
    view.Matches (n :: nodes) path ↔ compiled.schema.Fits trail ∧
      view.Matches nodes ((trail.text? restName).getD "") := by
  rw [View.matches_cons hne]
  constructor
  · rintro ⟨hit, rfl, rfl, hvalid, hrest⟩
    obtain ⟨rfl, rfl⟩ := hvalid.eq hcompiled htrail
    exact ⟨hvalid.fits, hrest⟩
  · rintro ⟨hfits, hrest⟩
    exact ⟨⟨n, compiled, path, trail⟩, rfl, rfl, ⟨hcompiled, htrail, hfits⟩, hrest⟩

/-- **What is found in a group whose values fit** is found through the group. -/
theorem answers_behind (hcompiled : view n.id = .ok compiled)
    (htrail : compiled.matcher.bind (·.captures? path) = some trail) {id : NodeId} {m : RouteMatch}
    {clean params : Params} (hclean : compiled.schema.clean? trail = some clean)
    (hparams : t.bindParams n.id clean = .ok params)
    (h : t.Answers view ((trail.text? restName).getD "") (t.Leads method n.id) (some (id, m))) :
    t.Answers view path (t.Behind method n) (some (id, m.nestUnder path params clean)) := by
  obtain ⟨hits, last, hwalk, hid, hmatch, hleads, hfirst⟩ := h
  have hvalid : Hit.IsValid view ⟨n, compiled, path, trail⟩ :=
    ⟨hcompiled, htrail, CompiledSchema.fits_of_clean? hclean⟩
  refine ⟨⟨n, compiled, path, trail⟩ :: hits, last, .group hvalid hwalk, hid,
    .group hclean hparams hmatch, ⟨_, hleads, rfl⟩, ?_⟩
  rintro ns ⟨inner, hinner, rfl⟩ hbefore hmatches
  have hrest := ((matches_behind hcompiled htrail hinner.ne_nil).mp hmatches).2
  cases hbefore with
  | rel h => exact h.irrefl
  | cons h => exact hfirst inner hinner h hrest

end Groups

/-! ### Levels -/

/-- A level is answered for, if its groups are. -/
theorem matchIn_answers_of_groups {place : NodeId} {nodes : List Node}
    (hpairwise : nodes.Pairwise (·.id < ·.id)) (hsub : nodes ⊆ t.nodes)
    (hall : ∀ n ∈ t.nodes, n.isIn place = true → n ∈ nodes)
    (hgroups : ∀ answer, (t.matchGroups view method nodes place path).outcome = .ok answer →
      t.Answers view path (t.Through method nodes place) answer)
    {answer : Option (NodeId × RouteMatch)}
    (h : (t.matchIn view method nodes place path).outcome = .ok answer) :
    t.Answers view path (t.Leads method place) answer := by
  rw [matchIn] at h
  obtain ⟨found, hfound, h⟩ := Consult.bind_eq_ok.mp h
  have hroutes := matchFirst_answers (pairwise_candidates hpairwise) hfound
  cases found with
  | some found =>
    obtain rfl := Except.ok.inj h
    exact (hroutes.append_left fun _ _ => not_searchedBefore_routes).congr fun _ =>
      leads_iff hsub hall
  | none => exact (Answers.append hroutes (hgroups answer h)).congr fun _ => leads_iff hsub hall

/-- **How a group has been gone through**, where no schema and no binder has failed. -/
inductive GoesThrough (t : Tree) (view : View) (method : Option Method) (n : Node)
    (later : List Node) (place : NodeId) (path : String) :
    Option (NodeId × RouteMatch) → Prop
  /-- Its expression does not match, and it is gone past. -/
  | unmatched {compiled : CompiledNode} {answer : Option (NodeId × RouteMatch)}
      (compiles : view n.id = .ok compiled)
      (captures : compiled.matcher.bind (·.captures? path) = none)
      (next : (t.matchGroups view method later place path).outcome = .ok answer) :
      GoesThrough t view method n later place path answer
  /-- Nothing in it matches, and it is gone past. -/
  | nothing {compiled : CompiledNode} {trail : Trail} {answer : Option (NodeId × RouteMatch)}
      (compiles : view n.id = .ok compiled)
      (captures : compiled.matcher.bind (·.captures? path) = some trail)
      (inside : (t.matchIn view method later n.id ((trail.text? restName).getD "")).outcome =
        .ok none)
      (next : (t.matchGroups view method later place path).outcome = .ok answer) :
      GoesThrough t view method n later place path answer
  /-- Its own values do not fit, and it is gone past, whatever has been found in it. -/
  | misfit {compiled : CompiledNode} {trail : Trail} {answer : Option (NodeId × RouteMatch)}
      (compiles : view n.id = .ok compiled)
      (captures : compiled.matcher.bind (·.captures? path) = some trail)
      (values : compiled.schema.clean? trail = none)
      (next : (t.matchGroups view method later place path).outcome = .ok answer) :
      GoesThrough t view method n later place path answer
  /-- What has been found in it counts. -/
  | found {compiled : CompiledNode} {trail : Trail} {id : NodeId} {m : RouteMatch}
      {clean params : Params} (compiles : view n.id = .ok compiled)
      (captures : compiled.matcher.bind (·.captures? path) = some trail)
      (inside : (t.matchIn view method later n.id ((trail.text? restName).getD "")).outcome =
        .ok (some (id, m)))
      (values : compiled.schema.clean? trail = some clean)
      (bound : t.bindParams n.id clean = .ok params) :
      GoesThrough t view method n later place path (some (id, m.nestUnder path params clean))

/-- An answer behind a group has come about in one of these ways. -/
theorem goesThrough_of_ok {place : NodeId} {n : Node} {later : List Node}
    {answer : Option (NodeId × RouteMatch)} (hgroup : (n.isGroup && n.isIn place) = true)
    (h : (t.matchGroups view method (n :: later) place path).outcome = .ok answer) :
    t.GoesThrough view method n later place path answer := by
  rw [matchGroups_group hgroup] at h
  obtain ⟨compiled, hcompiled, h⟩ := Consult.bind_eq_ok.mp h
  rw [Consult.node_eq_ok] at hcompiled
  cases htrail : compiled.matcher.bind (·.captures? path) with
  | none =>
    rw [htrail] at h
    exact .unmatched hcompiled htrail h
  | some trail =>
    rw [htrail] at h
    obtain ⟨inside, hinside, h⟩ := Consult.bind_eq_ok.mp h
    cases inside with
    | none => exact .nothing hcompiled htrail hinside h
    | some found =>
      cases hclean : compiled.schema.clean? trail with
      | none =>
        rw [hclean] at h
        exact .misfit hcompiled htrail hclean h
      | some clean =>
        rw [hclean] at h
        obtain ⟨params, hparams, h⟩ := Consult.bind_eq_ok.mp h
        obtain rfl := Except.ok.inj h
        exact .found hcompiled htrail hinside hclean hparams

/-- **The groups of a level are answered for**, by induction on the nodes still to be gone
through. -/
theorem matchGroups_answers (hsound : t.IsSound) {front nodes : List Node}
    (hnodes : t.nodes = front ++ nodes) {place : NodeId} {answer : Option (NodeId × RouteMatch)}
    (h : (t.matchGroups view method nodes place path).outcome = .ok answer) :
    t.Answers view path (t.Through method nodes place) answer := by
  induction nodes generalizing front place path answer with
  | nil =>
    obtain rfl := Except.ok.inj h
    rintro ns ⟨g, hg, -⟩
    cases hg
  | cons n later ih =>
    have hlater : t.nodes = (front ++ [n]) ++ later := hnodes.trans (List.append_cons ..)
    have hpairwise := (List.pairwise_append.mp (hnodes ▸ hsound.pairwise)).2.1
    obtain ⟨hbehind, hpairwise⟩ := List.pairwise_cons.mp hpairwise
    cases hgroup : n.isGroup && n.isIn place with
    | false =>
      rw [matchGroups_skip hgroup] at h
      exact (ih hlater h).congr fun _ => through_cons_of_skip hgroup
    | true =>
      have hnext (hmiss : ∀ ns, t.Behind method n ns → ¬view.Matches ns path)
          (hrest : (t.matchGroups view method later place path).outcome = .ok answer) :
          t.Answers view path (t.Through method (n :: later) place) answer :=
        (Answers.append hmiss (ih hlater hrest)).congr fun _ => through_cons_iff hgroup
      -- what stands in the group comes behind it
      have hlevel {text : String} {inside : Option (NodeId × RouteMatch)}
          (hinside : (t.matchIn view method later n.id text).outcome = .ok inside) :
          t.Answers view text (t.Leads method n.id) inside :=
        matchIn_answers_of_groups hpairwise (fun m hm => hlater ▸ List.mem_append_right _ hm)
          (fun m hm hin => hsound.mem_later hnodes hm (hsound.lt_of_isIn hm hin))
          (fun answer hanswer => ih hlater hanswer) hinside
      cases goesThrough_of_ok hgroup h with
      | unmatched compiles captures next =>
        exact hnext (fun _ => not_matches_of_captures compiles captures) next
      | nothing compiles captures inside next =>
        refine hnext ?_ next
        rintro ns ⟨inner, hinner, rfl⟩ hmatches
        exact hlevel inside inner hinner
          ((matches_behind compiles captures hinner.ne_nil).mp hmatches).2
      | misfit compiles captures values next =>
        refine hnext ?_ next
        rintro ns ⟨inner, hinner, rfl⟩ hmatches
        have hfits := ((matches_behind compiles captures hinner.ne_nil).mp hmatches).1
        rw [← CompiledSchema.clean?_isSome_iff, values] at hfits
        cases hfits
      | found compiles captures inside values bound =>
        have hisGroup := (Bool.and_eq_true_iff.mp hgroup).1
        exact ((answers_behind compiles captures values bound (hlevel inside)).append_left
          fun _ _ => not_searchedBefore_group hisGroup hbehind).congr
            fun _ => through_cons_iff hgroup

/-- **A search finds the first candidate that matches**, or nothing if none does. -/
theorem match?_answers (hsound : t.IsSound) {answer : Option (NodeId × RouteMatch)}
    (h : (t.match? view method path).outcome = .ok answer) :
    t.Answers view path (t.Leads method root) answer :=
  matchIn_answers_of_groups hsound.pairwise (List.Subset.refl _) (fun _ hn _ => hn)
    (fun _ hanswer => matchGroups_answers hsound (List.nil_append _).symm hanswer) h

end Tree

end UrlRouting
