import UrlRouting.Proofs.Tree.Arena
import UrlRouting.Proofs.Url.Chains

/-!
# Following links

In an arena a walk goes from number to number: upwards along the parents, or downwards along the
lists of children. Nothing in the arena says that such a walk stays inside of it or that it ends.
The walks of this file are therefore given a number of levels that they may go, and they fail if
these are used up or if a number has no cell:

* `UrlRouting.Arena.ancestorsWithin` – the node with a number and its ancestors;
* `UrlRouting.Arena.findWithin` – the first node with a name in a node;
* `UrlRouting.Tree.matchWithin` – the first route in a node that matches a path;
* `UrlRouting.Tree.pathWithin` – the path of a node behind those of the groups around it.

In the arena of a sound tree none of them fails, if there are as many levels as nodes: a walk
upwards goes to smaller numbers and a walk downwards to greater ones. And what they find is what
recursion along the list of nodes finds (`UrlRouting.Tree.IsSound.ancestorsWithin_eq`,
`UrlRouting.Tree.IsSound.findWithin_eq`, `UrlRouting.Tree.IsSound.matchWithin_eq`,
`UrlRouting.Tree.IsSound.pathWithin_eq`).
-/

namespace UrlRouting

/-! ### Walks -/

namespace Arena

/-- The node with a number and its ancestors, in so many levels. -/
def ancestorsWithin (a : Arena) : Nat → NodeId → Option (List Node)
  | 0, _ => none
  | depth + 1, id => do
    let n ← a.node? id
    match n.parent with
    | none => return [n]
    | some parent => return n :: (← a.ancestorsWithin depth parent)

/-- Has the node with a number this name? -/
def named (a : Arena) (name : String) (id : NodeId) : Option Bool :=
  (a.node? id).map fun n => n.name == some name

/-- The node with a name in a group, given how what is left of the name is looked up. -/
def findGroup (a : Arena) (inside : NodeId → String → Option (Option NodeId)) (name : String)
    (id : NodeId) : Option (Option NodeId) := do
  let group ← a.node? id
  match group.nameWithin? name with
  | some rest => inside id rest
  | none => return none

/-- The first node with a name in a node, if there is one, in so many levels: a route, or else a
hidden route, or else what is found in a group. -/
def findWithin (a : Arena) : Nat → NodeId → String → Option (Option NodeId)
  | 0, _, _ => none
  | depth + 1, place, name => do
    let cell ← a.cell? place
    match cell.children with
    | none => return none
    | some lists =>
      match ← lists.routes.findM? (a.named name) with
      | some id => return some id
      | none =>
        match ← lists.hidden.findM? (a.named name) with
        | some id => return some id
        | none => lists.groups.findSomeM? (a.findGroup (a.findWithin depth) name)

/-- The cell with a number, for a consultation that fails without it. -/
def visit (a : Arena) (id : NodeId) : OptionT Consult Cell := OptionT.mk (pure (a.cell? id))

end Arena

namespace Tree

/-- The first of some routes that answers to exactly the given method and matches a path. -/
def matchListed (t : Tree) (view : View) (path : String) (own : Option Method)
    (ids : List NodeId) : OptionT Consult (Option (NodeId × RouteMatch)) :=
  ids.findSomeM? fun id => do
    let cell ← t.arena.visit id
    if cell.node.answersTo own then
      return (← OptionT.lift (t.matchRoute view cell.node path)).map fun m => (id, m)
    else return none

/-- The route in a group that matches a path, given how what it leaves of the path is matched. -/
def matchGroup (t : Tree) (view : View) (path : String)
    (inside : NodeId → String → OptionT Consult (Option (NodeId × RouteMatch))) (id : NodeId) :
    OptionT Consult (Option (NodeId × RouteMatch)) := do
  let group ← t.arena.visit id
  let compiled ← OptionT.lift (Consult.node view group.node.id)
  match compiled.matcher.bind (·.captures? path) with
  | none => return none
  | some trail =>
    let rest := (Regex.Trail.text? restName trail).getD ""
    match ← inside id rest, compiled.schema.clean? trail with
    | some (route, m), some clean => do
      let params ← OptionT.lift (Consult.lift (t.bindParams id clean))
      return some (route, m.nestUnder path params clean)
    | _, _ => return none

/-- The first route in a node that matches a path, if there is one, in so many levels: a route for
all methods, or else one for the given method, or else what matches in a group. -/
def matchWithin (t : Tree) (view : View) (method : Option Method) :
    Nat → NodeId → String → OptionT Consult (Option (NodeId × RouteMatch))
  | 0, _, _ => failure
  | depth + 1, place, path => do
    let cell ← t.arena.visit place
    match cell.children with
    | none => return none
    | some lists =>
      match ← t.matchListed view path none lists.routes with
      | some found => return some found
      | none =>
        let exact ← match method with
          | some m => t.matchListed view path (some m) lists.routes
          | none => pure none
        match exact with
        | some found => return some found
        | none => lists.groups.findSomeM? (t.matchGroup view path (t.matchWithin view method depth))

/-- The path of a node behind those of the groups around it, and the parameters that remain, in so
many levels. -/
def pathWithin (t : Tree) (view : View) : Nat → NodeId → Params → OptionT Consult (String × Params)
  | 0, _, _ => failure
  | depth + 1, id, params => do
    let cell ← t.arena.visit id
    let compiled ← OptionT.lift (Consult.node view id)
    let (own, params) ←
      OptionT.lift (Consult.lift (t.fillSchema id cell.node.schema compiled.schema params))
    match cell.node.parent with
    | none => return (own, params)
    | some parent =>
      let above ← t.arena.visit parent
      if above.node.isGroup then
        let (front, params) ← t.pathWithin view depth parent params
        return (front ++ own, params)
      else return (own, params)

end Tree

theorem lift_bind {α β : Type} (x : Consult α) (f : α → Consult β) :
    OptionT.lift (x >>= f) = OptionT.lift x >>= fun a => OptionT.lift (f a) :=
  liftM_bind (n := OptionT Consult) x f

/-! ### Upwards -/

namespace Tree

variable {t : Tree} {n : Node} {id place : NodeId} {depth : Nat} {view : View}

/-- **Walking up an arena** passes the nodes of the chain. -/
theorem IsSound.ancestorsWithin_eq (h : t.IsSound) (hid : id < t.size) (hdepth : id < depth) :
    t.arena.ancestorsWithin depth id = some (t.chain id) := by
  induction depth generalizing id with
  | zero => exact absurd hdepth (Nat.not_lt_zero id)
  | succ depth ih =>
    obtain ⟨n, hn⟩ : ∃ n, t.get? id = some n := ⟨_, List.getElem?_eq_getElem hid⟩
    rw [Arena.ancestorsWithin, node?_arena, hn, h.chain_eq hn]
    cases hparent : n.parent with
    | none => simp [hparent]
    | some parent =>
      -- the parent has a smaller number, so a level less is enough for it
      have hlt : parent < n.id := h.lt_of_isIn (List.mem_of_getElem? hn) (beq_iff_eq.mpr hparent)
      rw [h.number hn] at hlt
      have hrest := ih (Nat.lt_trans hlt hid) (Nat.lt_of_lt_of_le hlt (Nat.le_of_lt_succ hdepth))
      simp [hparent, hrest]

/-- A node of the tree can be visited. -/
theorem IsSound.visit_eq (h : t.IsSound) (hn : n ∈ t.nodes) :
    ∃ c, t.arena.visit n.id = pure c ∧ c.node = n := by
  have hnode := (node?_arena t n.id).trans (h.mem_iff.mp hn)
  obtain ⟨c, hc, hcn⟩ := Option.map_eq_some_iff.mp hnode
  exact ⟨c, by rw [Arena.visit, hc]; rfl, hcn⟩

/-- **Filling schemas on the way up an arena** writes the path along the chain. -/
theorem IsSound.pathWithin_eq (h : t.IsSound) (hid : id < t.size) (hdepth : id < depth)
    (params : Params) :
    t.pathWithin view depth id params = OptionT.lift (t.pathOf view (t.chain id) params) := by
  induction depth generalizing id params with
  | zero => exact absurd hdepth (Nat.not_lt_zero id)
  | succ depth ih =>
    obtain ⟨n, hn⟩ : ∃ n, t.get? id = some n := ⟨_, List.getElem?_eq_getElem hid⟩
    have hmem : n ∈ t.nodes := List.mem_of_getElem? hn
    obtain rfl : n.id = id := h.number hn
    obtain ⟨c, hvisit, rfl⟩ := h.visit_eq hmem
    rw [pathWithin, hvisit, pure_bind, h.chain_eq hn, pathOf, lift_bind]
    refine bind_congr fun compiled => ?_
    rw [lift_bind]
    refine bind_congr fun filled => ?_
    obtain ⟨own, left⟩ := filled
    cases hparent : c.node.parent with
    | none => rfl
    | some parent =>
      -- parents have smaller numbers, so that the depth that is left is enough
      have hlt : parent < c.node.id := h.lt_of_isIn hmem (beq_iff_eq.mpr hparent)
      have hparentlt : parent < t.size := Nat.lt_trans hlt hid
      obtain ⟨p, hp⟩ : ∃ p, t.get? parent = some p := ⟨_, List.getElem?_eq_getElem hparentlt⟩
      obtain rfl : p.id = parent := h.number hp
      obtain ⟨c', hvisit', rfl⟩ := h.visit_eq (List.mem_of_getElem? hp)
      have hrest := ih hparentlt (Nat.lt_of_lt_of_le hlt (Nat.le_of_lt_succ hdepth)) left
      dsimp only
      rw [h.chain_eq hp] at hrest ⊢
      rw [hvisit', pure_bind, hrest]
      split
      · next hgroup =>
        dsimp only
        rw [if_pos hgroup, lift_bind]
        rfl
      · next hgroup =>
        dsimp only
        rw [if_neg hgroup]
        rfl

/-! ### Downwards -/

theorem Node.isRoute_eq (n : Node) : n.isRoute = decide (n.kind.bucket = .routes) := by
  rw [Node.isRoute]
  cases n.kind <;> rfl

theorem Node.isHidden_eq (n : Node) : n.isHidden = decide (n.kind.bucket = .hidden) := by
  rw [Node.isHidden]
  cases n.kind <;> rfl

theorem Holds.lt_size (h : t.Holds place) : place < t.size := by
  obtain ⟨n, hn, -⟩ := h
  exact (List.getElem?_eq_some_iff.mp hn).1

namespace IsSound

variable (h : t.IsSound)

include h

/-- The groups in a node are the nodes in its list of groups. -/
theorem fits_groups (hn : n ∈ t.nodes) :
    (n.isIn place && decide (n.kind.bucket = .groups)) = (n.isGroup && n.isIn place) := by
  cases hin : n.isIn place with
  | false => rw [Bool.false_and, Bool.and_false]
  | true =>
    have hid : n.id ≠ root := Nat.ne_of_gt (Nat.zero_lt_of_lt (h.lt_of_isIn hn hin))
    have hroot := (h.below n hn hid).1
    rw [Bool.true_and, Bool.and_true, Node.isGroup]
    cases hk : n.kind with
    | root => exact absurd hk hroot
    | group | route | hidden => simp [NodeKind.bucket]

/-- **One level further down** there are still enough levels. -/
theorem deeper (hn : n ∈ t.nodes) (hgroup : n.isGroup = true) (hin : n.isIn place = true)
    (hdepth : t.size ≤ depth + 1 + place) : t.Holds n.id ∧ t.size ≤ depth + n.id := by
  refine ⟨⟨n, h.mem_iff.mp hn, Node.holds_of_isGroup hgroup⟩, Nat.le_trans hdepth ?_⟩
  rw [Nat.add_assoc, Nat.one_add]
  exact Nat.add_le_add_left (h.lt_of_isIn hn hin) depth

end IsSound

section Names

variable {name : String}

theorem lookIn_append {front nodes : List Node} (h : ∀ m ∈ front, m.isIn place = false) :
    lookIn (front ++ nodes) place name = lookIn nodes place name := by
  induction front with
  | nil => rfl
  | cons m front ih =>
    obtain ⟨hm, hfront⟩ := List.forall_mem_cons.mp h
    rw [List.cons_append, lookIn_cons hm, ih hfront]

/-- Looking for a name along numbers of nodes is looking for it along the nodes. -/
theorem IsSound.findM?_named (h : t.IsSound) {nodes : List Node} (hnodes : nodes ⊆ t.nodes)
    (fits : Node → Bool) : ((nodes.filter fits).map (·.id)).findM? (t.arena.named name) =
      some ((nodes.find? fun n => fits n && n.name == some name).map (·.id)) := by
  induction nodes with
  | nil => rfl
  | cons n nodes ih =>
    obtain ⟨hn, hnodes⟩ := List.cons_subset.mp hnodes
    have hnamed : t.arena.named name n.id = some (n.name == some name) := by
      rw [Arena.named, node?_arena, h.mem_iff.mp hn, Option.map_some]
    rw [List.find?_cons, List.filter_cons]
    cases hfits : fits n with
    | false => exact ih hnodes
    | true =>
      rw [if_pos rfl, List.map_cons, List.findM?, hnamed, Bool.true_and]
      cases n.name == some name with
      | true => rfl
      | false => exact ih hnodes

/-- **Looking into the groups of a list** is looking into the groups among the nodes, of which those
in front have been passed. -/
theorem IsSound.findSomeM?_findGroup (h : t.IsSound) {earlier later : List Node}
    (hnodes : t.nodes = earlier ++ later) {inside : NodeId → String → Option (Option NodeId)}
    (hinside : ∀ n ∈ t.nodes, n.isGroup = true → n.isIn place = true → ∀ rest,
      inside n.id rest = some (lookIn t.nodes n.id rest)) :
    ((later.filter fun n => n.isIn place && decide (n.kind.bucket = .groups)).map
      (·.id)).findSomeM? (t.arena.findGroup inside name) = some (groupNamed? later place name) := by
  induction later generalizing earlier with
  | nil => rfl
  | cons n later ih =>
    have hn : n ∈ t.nodes := by
      rw [hnodes]
      exact List.mem_append_right _ List.mem_cons_self
    have hlater := ih (hnodes.trans (List.append_cons ..))
    rw [List.filter_cons, h.fits_groups hn, groupNamed?]
    cases hgroup : n.isGroup && n.isIn place with
    | false => exact hlater
    | true =>
      obtain ⟨hisGroup, hin⟩ := Bool.and_eq_true_iff.mp hgroup
      rw [if_pos rfl, List.map_cons, List.findSomeM?_cons, Arena.findGroup, node?_arena,
        h.mem_iff.mp hn, if_pos rfl]
      dsimp only [Option.bind_eq_bind, Option.bind_some]
      cases n.nameWithin? name with
      | none => exact hlater
      | some rest =>
        dsimp only
        -- what is in a group is registered behind it, so the search may begin there
        rw [hinside n hn hisGroup hin rest, hnodes, List.append_cons,
          lookIn_append (h.isIn_eq_false hnodes), lookIn]
        cases ownNamed? later n.id rest with
        | some id => rfl
        | none =>
          dsimp only [Option.bind_some]
          cases groupNamed? later n.id rest with
          | some id => rfl
          | none => exact hlater

/-- **Looking a name up along the lists** finds the node that looking through all nodes finds. -/
theorem IsSound.findWithin_eq (h : t.IsSound) (hholds : t.Holds place)
    (hdepth : t.size ≤ depth + place) :
    t.arena.findWithin depth place name = some (lookIn t.nodes place name) := by
  induction depth generalizing place name with
  | zero => exact absurd hholds.lt_size (Nat.not_lt_of_le (Nat.zero_add place ▸ hdepth))
  | succ depth ih =>
    obtain ⟨c, lists, hc, hlists, hof⟩ := h.exists_lists hholds
    have hroutes : lists.routes = _ := hof .routes
    have hhidden : lists.hidden = _ := hof .hidden
    have hgroups : lists.groups = _ := hof .groups
    -- a group has a greater number than its place, so a level less is enough inside of it
    have hinside : ∀ n ∈ t.nodes, n.isGroup = true → n.isIn place = true → ∀ rest,
        t.arena.findWithin depth n.id rest = some (lookIn t.nodes n.id rest) :=
      fun n hn hgroup hin rest =>
        let ⟨hholds, hdepth⟩ := h.deeper hn hgroup hin hdepth
        ih hholds hdepth
    have hnamed (b : Bucket) :
        (fun n : Node => n.isIn place && decide (n.kind.bucket = b) && n.name == some name) =
          fun n => decide (n.kind.bucket = b) && (n.isIn place && n.name == some name) := by
      funext n
      rw [Bool.and_comm (n.isIn place), Bool.and_assoc]
    rw [Arena.findWithin, hc, Option.bind_eq_bind, Option.bind_some, hlists]
    dsimp only
    rw [hroutes, h.findM?_named (List.Subset.refl _), hhidden, h.findM?_named (List.Subset.refl _),
      hgroups, h.findSomeM?_findGroup (List.nil_append _).symm hinside, lookIn, ownNamed?, hnamed,
      hnamed]
    simp only [Node.isRoute_eq, Node.isHidden_eq]
    cases t.nodes.find? fun n =>
        decide (n.kind.bucket = .routes) && (n.isIn place && n.name == some name) with
    | some n => rfl
    | none =>
      cases t.nodes.find? fun n =>
          decide (n.kind.bucket = .hidden) && (n.isIn place && n.name == some name) with
      | some n => rfl
      | none => rfl

end Names

section Matches

variable {method own : Option Method} {path : String}

theorem matchFirst_append (nodes nodes' : List Node) :
    t.matchFirst view path (nodes ++ nodes') = (do
      match ← t.matchFirst view path nodes with
      | some found => return some found
      | none => t.matchFirst view path nodes') := by
  induction nodes with
  | nil => exact (pure_bind ..).symm
  | cons n nodes ih =>
    rw [List.cons_append, matchFirst, matchFirst, bind_assoc]
    refine bind_congr fun found => ?_
    cases found with
    | some m => exact (pure_bind ..).symm
    | none => exact ih

/-- **Trying the routes of a list** is trying the routes among the nodes. -/
theorem IsSound.matchListed_eq (h : t.IsSound) {nodes : List Node} (hnodes : nodes ⊆ t.nodes) :
    t.matchListed view path own
      ((nodes.filter fun n => n.isIn place && decide (n.kind.bucket = .routes)).map (·.id)) =
      OptionT.lift (t.matchFirst view path
        (nodes.filter fun n => n.isIn place && n.answersTo own)) := by
  induction nodes with
  | nil => rfl
  | cons n nodes ih =>
    obtain ⟨hn, hnodes⟩ := List.cons_subset.mp hnodes
    have hlater := ih hnodes
    obtain ⟨c, hvisit, rfl⟩ := h.visit_eq hn
    rw [List.filter_cons, List.filter_cons]
    cases hin : c.node.isIn place with
    | false => exact hlater
    | true =>
      cases hown : c.node.answersTo own with
      | false =>
        -- a route for other methods is visited and passed over
        simp only [Bool.true_and, Bool.false_eq_true, if_false]
        split
        · rw [List.map_cons, matchListed, List.findSomeM?_cons, hvisit, pure_bind, hown,
            if_neg Bool.false_ne_true, pure_bind]
          exact hlater
        · exact hlater
      | true =>
        obtain ⟨action, hk⟩ := Node.isRoute_of_answersTo hown
        have hfits : decide (c.node.kind.bucket = .routes) = true := by rw [hk]; rfl
        rw [hfits, Bool.and_true, if_pos rfl, if_pos rfl, List.map_cons, matchListed,
          List.findSomeM?_cons, hvisit, pure_bind, if_pos hown, matchFirst, lift_bind, bind_assoc]
        refine bind_congr fun found => ?_
        rw [pure_bind]
        cases found with
        | some m => rfl
        | none => exact hlater

/-- **Going through the groups of a list** is going through the groups among the nodes, of which
those in front have been passed. -/
theorem IsSound.findSomeM?_matchGroup (h : t.IsSound) {earlier later : List Node}
    (hnodes : t.nodes = earlier ++ later)
    {inside : NodeId → String → OptionT Consult (Option (NodeId × RouteMatch))}
    (hinside : ∀ n ∈ t.nodes, n.isGroup = true → n.isIn place = true → ∀ rest,
      inside n.id rest = OptionT.lift (t.matchIn view method t.nodes n.id rest)) :
    ((later.filter fun n => n.isIn place && decide (n.kind.bucket = .groups)).map
      (·.id)).findSomeM? (t.matchGroup view path inside) =
        OptionT.lift (t.matchGroups view method later place path) := by
  induction later generalizing earlier with
  | nil => rfl
  | cons n later ih =>
    have hn : n ∈ t.nodes := by
      rw [hnodes]
      exact List.mem_append_right _ List.mem_cons_self
    have hlater := ih (hnodes.trans (List.append_cons ..))
    rw [List.filter_cons, h.fits_groups hn]
    cases hgroup : n.isGroup && n.isIn place with
    | false => exact hlater.trans (congrArg OptionT.lift (matchGroups_skip hgroup).symm)
    | true =>
      obtain ⟨hisGroup, hin⟩ := Bool.and_eq_true_iff.mp hgroup
      obtain ⟨c, hvisit, rfl⟩ := h.visit_eq hn
      rw [if_pos rfl, List.map_cons, List.findSomeM?_cons, matchGroup, hvisit, pure_bind,
        matchGroups_group hgroup, lift_bind, bind_assoc]
      refine bind_congr fun compiled => ?_
      cases compiled.matcher.bind (·.captures? path) with
      | none => exact (pure_bind ..).trans hlater
      | some trail =>
        dsimp only
        -- as for names, what is in a group is registered behind it
        rw [hinside c.node hn hisGroup hin, lift_bind, bind_assoc, hnodes, List.append_cons,
          matchIn_append (h.isIn_eq_false hnodes)]
        refine bind_congr fun found => ?_
        cases found with
        | none => exact (pure_bind ..).trans hlater
        | some found =>
          cases compiled.schema.clean? trail with
          | none => exact (pure_bind ..).trans hlater
          | some clean =>
            dsimp only
            rw [lift_bind, bind_assoc]
            exact bind_congr fun params => pure_bind ..

/-- **Matching a path along the lists** finds what going through all nodes finds, and looks at the
same nodes for it. -/
theorem IsSound.matchWithin_eq (h : t.IsSound) (hholds : t.Holds place)
    (hdepth : t.size ≤ depth + place) :
    t.matchWithin view method depth place path =
      OptionT.lift (t.matchIn view method t.nodes place path) := by
  induction depth generalizing place path with
  | zero => exact absurd hholds.lt_size (Nat.not_lt_of_le (Nat.zero_add place ▸ hdepth))
  | succ depth ih =>
    obtain ⟨c, lists, hc, hlists, hof⟩ := h.exists_lists hholds
    have hroutes : lists.routes = _ := hof .routes
    have hgroups : lists.groups = _ := hof .groups
    -- the groups of the list have greater numbers, so that the depth that is left is enough
    have hinside : ∀ n ∈ t.nodes, n.isGroup = true → n.isIn place = true → ∀ rest,
        t.matchWithin view method depth n.id rest =
          OptionT.lift (t.matchIn view method t.nodes n.id rest) :=
      fun n hn hgroup hin rest =>
        let ⟨hholds, hdepth⟩ := h.deeper hn hgroup hin hdepth
        ih hholds hdepth
    have hvisit : t.arena.visit place = pure c := by
      rw [Arena.visit, hc]
      rfl
    rw [matchWithin, hvisit, pure_bind, hlists]
    dsimp only
    rw [hroutes, hgroups, h.matchListed_eq (List.Subset.refl _),
      h.findSomeM?_matchGroup (List.nil_append _).symm hinside, matchIn, candidates.eq_def,
      matchFirst_append, lift_bind, lift_bind, bind_assoc]
    refine bind_congr fun found => ?_
    cases found with
    | some found => exact (pure_bind ..).symm
    | none =>
      cases method with
      | none => rfl
      | some m =>
        dsimp only
        rw [h.matchListed_eq (List.Subset.refl _)]
        refine bind_congr fun found => ?_
        cases found <;> rfl

end Matches

end Tree

end UrlRouting
