import UrlRouting.Proofs.Matching.Chains
import UrlRouting.Proofs.Matching.Groups
import UrlRouting.Proofs.Url.Rows
import UrlRouting.Url.Build

/-!
# Names and urls along a chain

A route in groups is named by the prefixes of the groups and its own name. In a tree that is a
single chain, this name is found (`UrlRouting.Tree.Leads.lookIn_eq`): each group takes its prefix
off.

The url is written from the route upwards. What one schema has used up is not there any more for the
ones above it. If all schemas are rows of components and no name is declared twice, each of them
finds all its values, and nothing is left over at the end (`UrlRouting.Tree.pathOf_chain`).
-/

namespace UrlRouting

open Component

/-! ### Nodes further down -/

namespace Tree

variable {t : Tree} {view : View} {method : Option Method} {place : NodeId} {g n : Node}
  {nodes : List Node}

/-- What a place leads to stands in the place or further down. -/
theorem Leads.exists_parent (h : t.IsSound) (hleads : t.Leads method place nodes) :
    ∀ n ∈ nodes, ∃ p, n.parent = some p ∧ place ≤ p := by
  induction hleads with
  | @route place n own action mem isIn kind answers =>
    rintro m hm
    obtain rfl := List.mem_singleton.mp hm
    exact ⟨place, beq_iff_eq.mp isIn, Nat.le_refl _⟩
  | @group place g nodes mem isIn isGroup inside ih =>
    rintro m hm
    rcases List.mem_cons.mp hm with rfl | hm
    · exact ⟨place, beq_iff_eq.mp isIn, Nat.le_refl _⟩
    · obtain ⟨p, hp, hle⟩ := ih m hm
      exact ⟨p, hp, Nat.le_trans (Nat.le_of_lt (h.lt_of_isIn mem isIn)) hle⟩

/-- What a group leads to does not stand beside it. -/
theorem Leads.isIn_eq_false (h : t.IsSound) (hg : g ∈ t.nodes) (hin : g.isIn place = true)
    (hleads : t.Leads method g.id nodes) : ∀ n ∈ nodes, n.isIn place = false := by
  intro n hn
  obtain ⟨p, hp, hle⟩ := hleads.exists_parent h n hn
  have hlt := h.lt_of_isIn hg hin
  refine beq_eq_false_iff_ne.mpr fun heq => ?_
  obtain rfl : p = place := Option.some.inj (hp.symm.trans heq)
  exact absurd hle (Nat.not_le_of_lt hlt)

end Tree

/-! ### Names -/

theorem behind?_append (front rest : List Char) : behind? front (front ++ rest) = some rest := by
  induction front with
  | nil => rfl
  | cons c front ih => exact (if_pos rfl).trans ih

/-- A group takes its prefix off a name. -/
theorem Node.nameWithin?_append (n : Node) (rest : String) :
    n.nameWithin? (n.namePrefix ++ rest) = some rest := by
  rw [nameWithin?, String.toList_append, behind?_append, Option.map_some, String.ofList_toList]

/-- **The full name** of what stands in some groups: their prefixes, and its own name. -/
def fullName (name : String) : List Node → String
  | [] => name
  | n :: nodes => n.namePrefix ++ fullName name nodes

namespace Tree

variable {t : Tree} {method : Option Method} {place : NodeId} {n last : Node}
  {nodes : List Node} {name : String}

/-- The node with a name in a place: of its routes, or else in its groups. -/
def lookIn (nodes : List Node) (place : NodeId) (name : String) : Option NodeId :=
  match ownNamed? nodes place name with
  | some id => some id
  | none => groupNamed? nodes place name

theorem ownNamed?_eq_none (h : ∀ n ∈ nodes, n.isIn place = false ∨ n.isGroup = true) :
    ownNamed? nodes place name = none := by
  have hnone : ∀ n ∈ nodes, (n.isRoute && (n.isIn place && n.name == some name)) = false ∧
      (n.isHidden && (n.isIn place && n.name == some name)) = false := by
    intro n hn
    rcases h n hn with hin | hgroup
    · simp [hin]
    · rw [Node.isGroup] at hgroup
      split at hgroup
      · next hk => simp [Node.isRoute, Node.isHidden, hk]
      · cases hgroup
  rw [ownNamed?, List.find?_eq_none.mpr fun n hn => by simp [(hnone n hn).1],
    List.find?_eq_none.mpr fun n hn => by simp [(hnone n hn).2]]
  rfl

/-- A node of another place does not matter. -/
theorem lookIn_cons (h : n.isIn place = false) :
    lookIn (n :: nodes) place name = lookIn nodes place name := by
  have hown : ownNamed? (n :: nodes) place name = ownNamed? nodes place name := by
    rw [ownNamed?, ownNamed?, List.find?_cons_of_neg (by simp [h]),
      List.find?_cons_of_neg (by simp [h])]
  have hgroup : groupNamed? (n :: nodes) place name = groupNamed? nodes place name := by
    rw [groupNamed?, h, Bool.and_false]
    rfl
  rw [lookIn, lookIn, hown, hgroup]

/-- **The full name of a route is found** along the chain that leads to it. -/
theorem Leads.lookIn_eq (h : t.IsSound) (hleads : t.Leads method place nodes)
    (hlast : nodes.getLast? = some last) (hname : last.name = some name) :
    lookIn nodes place (fullName name nodes) = some last.id := by
  induction hleads with
  | @route place n own action mem isIn kind answers =>
    obtain rfl : n = last := Option.some.inj hlast
    have hfull : fullName name [n] = name := by
      rw [fullName, Node.namePrefix, kind, String.empty_append]
      rfl
    have hroute : n.isRoute = true := by rw [Node.isRoute, kind]
    have hown : ownNamed? [n] place name = some n.id := by
      rw [ownNamed?, List.find?_cons_of_pos (by simp [hroute, isIn, hname])]
    rw [hfull, lookIn, hown]
  | @group place g nodes mem isIn isGroup inside ih =>
    have hlater := inside.isIn_eq_false h mem isIn
    have hown : ownNamed? (g :: nodes) place (fullName name (g :: nodes)) = none := by
      refine ownNamed?_eq_none fun n hn => ?_
      rcases List.mem_cons.mp hn with rfl | hn
      · exact .inr isGroup
      · exact .inl (hlater n hn)
    have hinside : lookIn nodes g.id (fullName name nodes) = some last.id := by
      refine ih ?_
      rwa [List.getLast?_cons_of_ne_nil inside.ne_nil] at hlast
    rw [lookIn, hown]
    dsimp only
    rw [groupNamed?, isGroup, isIn, Bool.and_true, if_pos rfl, fullName, Node.nameWithin?_append]
    dsimp only
    change (match lookIn nodes g.id (fullName name nodes) with | some id => some id | none => _) = _
    rw [hinside]

end Tree

/-! ### Paths -/

/-- What is sent to an action through a binder; without a binder, it is sent as it is. -/
def Receives (input : Option Transform) (c d : Value) : Prop :=
  match input with
  | none => c = d
  | some f => f c = .ok d

/-- **Two values stand for each other** at a parameter of a node, one in an action and one in a
path: the binders that are in force there turn them into each other. -/
structure Tree.Exchanges (t : Tree) (id : NodeId) (p : Parameter) (d c : Value) : Prop where
  /-- The value in a path is one of the type. -/
  holds : Holds (Parameter.typeOf p.typeName) c
  /-- The value in an action counts as given. -/
  given : d.isVoid = false
  /-- Towards a path. -/
  sends : Sends (t.binderOut? id p.name) d c
  /-- Towards an action. -/
  receives : Receives (t.binderIn? id p.name) c d

namespace Tree

variable {t : Tree} {view : View} {comps : Node → List Component} {domain clean : String → Value}
  {params : Params} {more : List String}

/-- **A node writes its own row**, and uses up the values of its own names. -/
theorem fillSchema_row (id : NodeId) (route : String) (row : List Component)
    (hnodup : (names row ++ more).Nodup) (hparams : params.Gives domain (names row ++ more))
    (hgiven : ∀ n ∈ names row ++ more, (domain n).isVoid = false)
    (hvalues : ∀ p ∈ Component.params row, t.Exchanges id p (domain p.name) (clean p.name)) :
    ∃ left, t.fillSchema id route ((Schema.row "" row .done).compiled {}) params =
        .ok (pathText clean row, left) ∧ left.Gives domain more := by
  have hspecs : (Component.params row).map (·.spec {}) <+:
      (t.fillContext id route (Schema.row "" row .done)).specs.drop 0 := by
    rw [fillContext, Schema.specs, Schema.params_row, Schema.params, List.append_nil]
    exact List.prefix_refl _
  have hsent : ∀ p ∈ Component.params row, Holds (Parameter.typeOf p.typeName) (clean p.name) ∧
      ∃ d, params.get? p.name = some d ∧ Sends (t.binderOut? id p.name) d (clean p.name) := by
    intro p hp
    have hname : p.name ∈ names row := List.mem_map_of_mem hp
    exact ⟨(hvalues p hp).holds, _, hparams.get? p.name (List.mem_append_left _ hname),
      (hvalues p hp).sends⟩
  have hdone : (Schema.done.template (0 + (names row).length)).fill
      (t.fillContext id route (Schema.row "" row .done)) true params =
        .ok ⟨"", params, [], false⟩ := rfl
  have hrow : ((Schema.row "" row .done).template 0).fill
      (t.fillContext id route (Schema.row "" row .done)) true params =
        .ok ⟨"" ++ pathText clean row ++ "", params, [] ++ (names row).reverse, false⟩ :=
    Schema.fill_row hspecs hsent hdone rfl
  rw [String.empty_append, String.append_empty, List.nil_append] at hrow
  have hwritten : t.fillSchema id route ((Schema.row "" row .done).compiled {}) params =
      .ok (pathText clean row, params.eraseAll (names row).reverse) := by
    refine fillSchema_eq (r := ⟨pathText clean row, params, (names row).reverse, false⟩) ?_
    rwa [hparams.given_eq hgiven]
  exact ⟨_, hwritten, hparams.eraseAll hnodup⟩

/-- **The nodes of a chain are rows**: their schemas are rows of components, and they compile to
what these are by themselves. -/
def ShowsRows (view : View) (comps : Node → List Component) (nodes : List Node) : Prop :=
  ∀ n ∈ nodes, Schema.ofText n.schema = .ok (Schema.row "" (comps n) .done) ∧
    ∃ c, view n.id = .ok c ∧ n.compile {} = .ok c

/-- The values of all parameters of a chain stand for each other. -/
def ExchangesAll (t : Tree) (comps : Node → List Component) (nodes : List Node)
    (domain clean : String → Value) : Prop :=
  ∀ n ∈ nodes, ∀ p ∈ Component.params (comps n),
    t.Exchanges n.id p (domain p.name) (clean p.name)

theorem ExchangesAll.given {nodes : List Node}
    (h : t.ExchangesAll comps nodes domain clean) :
    ∀ name ∈ names (nodes.flatMap comps), (domain name).isVoid = false := by
  intro name hname
  obtain ⟨p, hp, rfl⟩ := List.mem_map.mp hname
  obtain ⟨comp, hcomp, hparam⟩ := List.mem_filterMap.mp hp
  obtain ⟨n, hn, hcomp⟩ := List.mem_flatMap.mp hcomp
  exact (h n hn p (List.mem_filterMap.mpr ⟨comp, hcomp, hparam⟩)).given

/-- **The path of a chain**, from the inside out: each node finds the values of its names, and
nothing is left over. -/
theorem pathOf_chain {view : View} {nodes : List Node} {r : Node} (hne : nodes ≠ [])
    (hgroups : ∀ n ∈ nodes.tail, n.isGroup = true) (hroot : r.isGroup = false)
    (hrows : ShowsRows view comps nodes) (hvalues : t.ExchangesAll comps nodes domain clean)
    (hnodup : (names (nodes.flatMap comps)).Nodup)
    (hparams : params.Gives domain (names (nodes.flatMap comps))) :
    ∃ left, (t.pathOf view (nodes ++ [r]) params).outcome =
        .ok (pathText clean (nodes.reverse.flatMap comps), left) ∧ left.Gives domain [] := by
  induction nodes generalizing params with
  | nil => exact absurd rfl hne
  | cons n above ih =>
    have hgiven := hvalues.given
    rw [List.flatMap_cons, names_append] at hnodup hparams hgiven
    obtain ⟨hrow, hrows⟩ := List.forall_mem_cons.mp hrows
    obtain ⟨hown, hvalues⟩ := List.forall_mem_cons.mp hvalues
    obtain ⟨hs, c, hview, hc⟩ := hrow
    have hschema := Node.schema_of_compile hs hc
    obtain ⟨left, hfill, hleft⟩ := fillSchema_row n.id n.schema (comps n) hnodup hparams hgiven hown
    rw [← hschema] at hfill
    rw [List.cons_append, pathOf, Consult.bind_of_ok (Consult.node_eq_ok.mpr hview),
      Consult.bind_of_ok (a := _) hfill]
    -- above the outermost group there is the root, which is none
    cases above with
    | nil =>
      rw [List.nil_append]
      dsimp only
      rw [hroot]
      refine ⟨left, ?_, hleft⟩
      simp only [List.reverse_singleton, List.flatMap_singleton]
      rfl
    | cons m above =>
      have hm : m.isGroup = true := hgroups m List.mem_cons_self
      obtain ⟨rest, hfront, hrest⟩ := ih nofun (fun n hn => hgroups n (List.mem_cons_of_mem m hn))
        hrows hvalues (List.nodup_append.mp hnodup).2.1 hleft
      have hpath : pathText clean ((n :: m :: above).reverse.flatMap comps) =
          pathText clean ((m :: above).reverse.flatMap comps) ++ pathText clean (comps n) := by
        rw [List.reverse_cons, List.flatMap_append, List.flatMap_singleton, pathText_append]
      refine ⟨rest, ?_, hrest⟩
      rw [List.cons_append]
      dsimp only
      rw [hm, if_pos rfl, ← List.cons_append, Consult.bind_of_ok hfront, hpath]
      rfl

end Tree

end UrlRouting
