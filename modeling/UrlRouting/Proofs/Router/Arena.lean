import UrlRouting.Proofs.Router.FindRoute
import UrlRouting.Proofs.Router.Reachable
import UrlRouting.Proofs.Tree.Links

/-!
# The arena of a router

Whatever operations a router has gone through, the arena of its tree is a tree itself, and walks
along its links end and stay inside of it (`UrlRouting.Router.isTree_arena_runAll`). It does not
matter where a plan has ended, which steps of it were lenient and which names were refused: an
operation either adds nodes behind the others or leaves them alone, and of the nodes that are there
it changes the settings only (`UrlRouting.Router.IsSound.get?_runAll`).

So a number, once it has been answered, is the number of a node ever after
(`UrlRouting.Router.IsSound.numbers_runAll`). New nodes are numbered by their places, and what is
looked up or matched is a node of the tree. A plan is carried out in groups that it may have
registered itself, and these stay even if it fails (`UrlRouting.Plan.places_carryOut`).
-/

namespace UrlRouting

/-! ### Numbers that are handed out -/

/-- The numbers in a report. -/
def Report.numbers : Report → List NodeId
  | .done => []
  | .step (.ok (some id)) rest => id :: rest.numbers
  | .step _ rest => rest.numbers
  | .group (.ok id) inner rest => id :: (inner.numbers ++ rest.numbers)
  | .group (.error _) inner rest => inner.numbers ++ rest.numbers

/-- The numbers of the groups that a plan is carried out in: that of its own group, and those of the
groups that it registers, whatever comes of their plans. -/
def Plan.places : Plan → Tree → NodeId → List NodeId
  | .done, _, place => [place]
  | .step lenient r rest, t, place =>
    match r.carryOut t place with
    | .ok (t, _) => rest.places t place
    | .error _ => if lenient then rest.places t place else [place]
  | .group lenient schema namePrefix inner rest, t, place =>
    match t.add place schema none (.group namePrefix) with
    | .error _ => [place]
    | .ok (t, id) =>
      let inside := inner.carryOut t id
      inner.places t id ++
        if inside.failure.isNone || lenient then rest.places inside.tree place else [place]

/-- The numbers of the groups that the plan of an operation is carried out in. -/
def Operation.places (t : Tree) : Operation → List NodeId
  | .group schema namePrefix plan =>
    match t.add Tree.root schema none (.group namePrefix) with
    | .error _ => []
    | .ok (t, id) => plan.places t id
  | .routes plan => plan.places t Tree.root
  | _ => []

/-- The numbers in an answer. -/
def Answer.numbers : Answer → List NodeId
  | .registered (.ok id) => [id]
  | .built (.ok id) report => id :: report.numbers
  | .built (.error _) report => report.numbers
  | .matched (.ok (id, _)) => [id]
  | .found (some id) => [id]
  | _ => []

section

variable {t t' : Tree} {place id : NodeId} {name : String}

/-- The number of a new node is one of the tree. -/
theorem Tree.lt_size_of_add {schema : String} {name : Option String} {kind : NodeKind}
    (hadd : t.add place schema name kind = .ok (t', id)) : id < t'.size := by
  obtain ⟨rfl, rfl⟩ := add_eq_ok hadd
  rw [size, size, List.length_append]
  exact Nat.lt_succ_self _

theorem Registration.lt_size_of_carryOut {r : Registration}
    (hr : r.carryOut t place = .ok (t', some id)) : id < t'.size := by
  -- a step registers one node, and then changes settings
  have hnode {schema : String} {name : Option String} {kind : NodeKind} {ss : List Setting}
      (h : (t.add place schema name kind >>= fun added =>
        .ok (added.1.configure added.2 ss, some added.2)) = .ok (t', some id)) :
      id < t'.size := by
    obtain ⟨added, hadd, h⟩ := Schema.bind_eq_ok_iff.mp h
    cases h
    rw [Tree.size_configure]
    exact Tree.lt_size_of_add hadd
  cases r with
  | route => exact hnode hr
  | hidden => exact hnode hr
  | setting => cases hr

/-- What holds around the inside of a group: the group is a place there, the place of the plan is
one behind it, and the tree only grows. -/
theorem Plan.carryOut_group {t₁ : Tree} {new : NodeId} {schema : String}
    {namePrefix : Option String} (h : t.IsSound) (hholds : t.Holds place)
    (hadd : t.add place schema none (.group namePrefix) = .ok (t₁, new)) (inner rest : Plan) :
    t₁.IsSound ∧ t₁.Holds new ∧ (inner.carryOut t₁ new).tree.IsSound ∧
      (inner.carryOut t₁ new).tree.Holds place ∧ t₁.size ≤ (inner.carryOut t₁ new).tree.size ∧
      (inner.carryOut t₁ new).tree.size ≤
        (rest.carryOut (inner.carryOut t₁ new).tree place).tree.size := by
  obtain ⟨hsound, hgroup⟩ := h.add_group hholds hadd
  obtain ⟨hinside, hext⟩ := inner.carryOut_extends hsound hgroup
  have hadded : t.Extends place [] t₁ := Tree.extends_add hadd
  have hplace := hext.holds (hadded.holds hholds)
  exact ⟨hsound, hgroup, hinside, hplace, hext.size_le,
    (rest.carryOut_extends hinside hplace).2.size_le⟩

/-- **The numbers in the report of a plan** are numbers of the tree that the plan leaves behind. -/
theorem Plan.numbers_carryOut (plan : Plan) (h : t.IsSound) (hholds : t.Holds place) :
    ∀ id ∈ (plan.carryOut t place).report.numbers, id < (plan.carryOut t place).tree.size := by
  induction plan generalizing t place with
  | done => exact List.forall_mem_nil _
  | step lenient r rest ih =>
    rw [carryOut]
    cases hr : r.carryOut t place with
    | ok done =>
      obtain ⟨t₁, new⟩ := done
      obtain ⟨hsound, hext⟩ := r.carryOut_extends h hholds hr
      have hrest := ih hsound (hext.holds hholds)
      cases new with
      | none => exact hrest
      | some new =>
        -- what was registered is still there at the end: the rest of the plan only adds nodes
        refine List.forall_mem_cons.mpr ⟨?_, hrest⟩
        exact Nat.lt_of_lt_of_le (r.lt_size_of_carryOut hr)
          (rest.carryOut_extends hsound (hext.holds hholds)).2.size_le
    | error e =>
      dsimp only
      split
      · exact ih h hholds
      · exact List.forall_mem_nil _
  | group lenient schema namePrefix inner rest ih1 ih2 =>
    rw [carryOut]
    cases hadd : t.add place schema none (.group namePrefix) with
    | error e => exact List.forall_mem_nil _
    | ok added =>
      obtain ⟨t₁, new⟩ := added
      obtain ⟨hsound, hgroup, hinside, hplace, hbegins, hgrows⟩ :=
        carryOut_group h hholds hadd inner rest
      have hinner := ih1 hsound hgroup
      have hboth : ∀ id ∈ (inner.carryOut t₁ new).report.numbers ++
          (rest.carryOut (inner.carryOut t₁ new).tree place).report.numbers,
          id < (rest.carryOut (inner.carryOut t₁ new).tree place).tree.size :=
        List.forall_mem_append.mpr
          ⟨fun id hid => Nat.lt_of_lt_of_le (hinner id hid) hgrows, ih2 hinside hplace⟩
      -- the inside of the group has failed or not, and a failure is passed over or not
      dsimp only
      split
      · refine List.forall_mem_cons.mpr ⟨?_, hboth⟩
        exact Nat.lt_of_lt_of_le (Tree.lt_size_of_add hadd) (Nat.le_trans hbegins hgrows)
      · split
        · exact hboth
        · exact List.forall_mem_append.mpr ⟨hinner, List.forall_mem_nil _⟩

/-- **The groups that a plan is carried out in** are nodes of the tree that it leaves behind. -/
theorem Plan.places_carryOut (plan : Plan) (h : t.IsSound) (hholds : t.Holds place) :
    ∀ id ∈ plan.places t place, id < (plan.carryOut t place).tree.size := by
  induction plan generalizing t place with
  | done => exact List.forall_mem_singleton.mpr hholds.lt_size
  | step lenient r rest ih =>
    rw [places, carryOut]
    cases hr : r.carryOut t place with
    | ok done =>
      obtain ⟨hsound, hext⟩ := r.carryOut_extends h hholds hr
      exact ih hsound (hext.holds hholds)
    | error e =>
      cases lenient with
      | true => exact ih h hholds
      | false => exact List.forall_mem_singleton.mpr hholds.lt_size
  | group lenient schema namePrefix inner rest ih1 ih2 =>
    rw [places, carryOut]
    cases hadd : t.add place schema none (.group namePrefix) with
    | error e => exact List.forall_mem_singleton.mpr hholds.lt_size
    | ok added =>
      obtain ⟨t₁, new⟩ := added
      obtain ⟨hsound, hgroup, hinside, hplace, -, hgrows⟩ := carryOut_group h hholds hadd inner rest
      have hinner := ih1 hsound hgroup
      have hboth : ∀ id ∈ inner.places t₁ new ++ rest.places (inner.carryOut t₁ new).tree place,
          id < (rest.carryOut (inner.carryOut t₁ new).tree place).tree.size :=
        List.forall_mem_append.mpr
          ⟨fun id hid => Nat.lt_of_lt_of_le (hinner id hid) hgrows, ih2 hinside hplace⟩
      dsimp only
      cases (inner.carryOut t₁ new).failure with
      | none => exact hboth
      | some e =>
        cases lenient with
        | true => exact hboth
        | false =>
          exact List.forall_mem_append.mpr
            ⟨hinner, List.forall_mem_singleton.mpr hplace.lt_size⟩

/-! ### Numbers that are found -/

theorem Tree.mem_of_ownNamed? {nodes : List Node} (h : ownNamed? nodes place name = some id) :
    ∃ n ∈ nodes, n.id = id := by
  rw [ownNamed?] at h
  split at h
  · next n hn => exact ⟨n, List.mem_of_find?_eq_some hn, Option.some.inj h⟩
  · obtain ⟨n, hn, hid⟩ := Option.map_eq_some_iff.mp h
    exact ⟨n, List.mem_of_find?_eq_some hn, hid⟩

theorem Tree.mem_of_groupNamed? {nodes : List Node} (h : groupNamed? nodes place name = some id) :
    ∃ n ∈ nodes, n.id = id := by
  induction nodes generalizing place name with
  | nil => cases h
  | cons n later ih =>
    have hlater {place : NodeId} {name : String} (h : groupNamed? later place name = some id) :
        ∃ m ∈ n :: later, m.id = id :=
      let ⟨m, hm, hid⟩ := ih h
      ⟨m, List.mem_cons_of_mem n hm, hid⟩
    rw [groupNamed?] at h
    split at h
    · next found hfound =>
      obtain rfl := Option.some.inj h
      split at hfound
      · split at hfound
        · next rest hrest =>
          split at hfound
          · next hown =>
            obtain rfl := Option.some.inj hfound
            obtain ⟨m, hm, hid⟩ := mem_of_ownNamed? hown
            exact ⟨m, List.mem_cons_of_mem n hm, hid⟩
          · exact hlater hfound
        · cases hfound
      · cases hfound
    · exact hlater h

/-- What has a name is a node of the tree. -/
theorem Tree.IsSound.lt_size_of_find? (h : t.IsSound) (hfind : t.find? name = some id) :
    id < t.size := by
  obtain ⟨n, hn, rfl⟩ : ∃ n ∈ t.nodes, n.id = id := by
    rw [find?] at hfind
    split at hfind
    · next hown => exact mem_of_ownNamed? (hown.trans hfind)
    · exact mem_of_groupNamed? hfind
  exact h.lt_size hn

/-- What matches is a node of the tree. -/
theorem Tree.IsSound.lt_size_of_match? (h : t.IsSound) {view : View} {method : Option Method}
    {path : String} {m : RouteMatch}
    (hmatch : (t.match? view method path).outcome = .ok (some (id, m))) : id < t.size := by
  obtain ⟨hits, last, -, rfl, -, hleads, -⟩ := match?_answers h hmatch
  exact h.lt_size (hleads.mem _ (List.mem_map_of_mem (List.mem_append_right _ List.mem_cons_self)))

end

namespace Router

variable {r : Router} {id : NodeId}

/-! ### One operation -/

/-- What a path leads to is a node of the tree. -/
theorem IsSound.lt_size_of_findMatch (h : r.IsSound) {path : String} {method : Option Method}
    {m : RouteMatch} (hfound : (r.findMatch path method).outcome = .ok (id, m)) :
    id < r.tree.size :=
  h.tree.lt_size_of_match? (match?_of_findMatch hfound)

/-- The root is still there in a tree that has been extended. -/
theorem IsSound.root_lt_size (h : r.IsSound) {t : Tree} {given : List Setting}
    (hext : r.tree.Extends Tree.root given t) : Tree.root < t.size :=
  (hext.holds h.holds_root).lt_size

/-- A registration answers with the number of its node, or with that of the root. -/
theorem IsSound.numbers_register (h : r.IsSound) (reg : Registration) :
    ∀ id ∈ (r.register reg).2.numbers, id < (r.register reg).1.tree.size := by
  rw [register]
  cases hreg : reg.carryOut r.tree Tree.root with
  | error e => exact List.forall_mem_nil _
  | ok done =>
    obtain ⟨t, new⟩ := done
    refine List.forall_mem_singleton.mpr ?_
    cases new with
    | none => exact h.root_lt_size (reg.carryOut_extends h.tree h.holds_root hreg).2
    | some new => exact reg.lt_size_of_carryOut hreg

/-- A group answers with its own number, and its plan with those of what it has registered. -/
theorem IsSound.numbers_group (h : r.IsSound) (schema : String) (namePrefix : Option String)
    (plan : Plan) :
    ∀ id ∈ (r.perform (.group schema namePrefix plan)).2.numbers,
      id < (r.perform (.group schema namePrefix plan)).1.tree.size := by
  rw [Router.perform]
  cases hadd : r.tree.add Tree.root schema none (.group namePrefix) with
  | error e => exact List.forall_mem_nil _
  | ok added =>
    obtain ⟨t, new⟩ := added
    obtain ⟨hsound, hgroup⟩ := h.tree.add_group h.holds_root hadd
    have hplan := plan.numbers_carryOut hsound hgroup
    have hnew := Nat.lt_of_lt_of_le (Tree.lt_size_of_add hadd)
      (plan.carryOut_extends hsound hgroup).2.size_le
    dsimp only
    cases (plan.carryOut t new).failure with
    | none => exact List.forall_mem_cons.mpr ⟨hnew, hplan⟩
    | some e => exact hplan

/-- A plan of the root answers with the root, and with the numbers of what it has registered. -/
theorem IsSound.numbers_routes (h : r.IsSound) (plan : Plan) :
    ∀ id ∈ (r.perform (.routes plan)).2.numbers, id < (r.perform (.routes plan)).1.tree.size := by
  have hplan := plan.numbers_carryOut h.tree h.holds_root
  have hroot := h.root_lt_size (plan.carryOut_extends h.tree h.holds_root).2
  rw [Router.perform]
  dsimp only
  cases (plan.carryOut r.tree Tree.root).failure with
  | none => exact List.forall_mem_cons.mpr ⟨hroot, hplan⟩
  | some e => exact hplan

theorem IsSound.numbers_perform (h : r.IsSound) (op : Operation) :
    ∀ id ∈ (r.perform op).2.numbers, id < (r.perform op).1.tree.size := by
  cases op with
  | route schema name method action => exact h.numbers_register _
  | hidden schema name => exact h.numbers_register _
  | group schema namePrefix plan => exact h.numbers_group schema namePrefix plan
  | routes plan => exact h.numbers_routes plan
  | findMatch path method =>
    rw [Router.perform]
    dsimp only
    rw [tree_keep]
    cases hfound : (r.findMatch path method).outcome with
    | error e => exact List.forall_mem_nil _
    | ok found => exact List.forall_mem_singleton.mpr (h.lt_size_of_findMatch hfound)
  | find name =>
    rw [Router.perform]
    dsimp only
    cases hfound : r.tree.find? name with
    | none => exact List.forall_mem_nil _
    | some id => exact List.forall_mem_singleton.mpr (h.tree.lt_size_of_find? hfound)
  | sealUp =>
    rw [Router.perform]
    split <;> exact List.forall_mem_nil _
  | setting | controller | dispatch | url | isSealed | node | options =>
    exact List.forall_mem_nil _

/-- **The numbers in an answer** are numbers of the tree. -/
theorem IsSound.numbers_step (h : r.IsSound) (op : Operation) :
    ∀ id ∈ (r.step op).2.numbers, id < (r.step op).1.tree.size := by
  rcases step_eq r op with ⟨e, -, -, heq⟩ | ⟨-, heq⟩
  · -- a refusal has no numbers
    rw [heq]
    cases op <;> exact List.forall_mem_nil _
  · rw [heq]
    exact h.numbers_perform op

/-- **The groups that the plan of an operation is carried out in** are nodes of the tree. -/
theorem IsSound.places_step (h : r.IsSound) (hopen : r.isSealed = false) (op : Operation) :
    ∀ id ∈ op.places r.tree, id < (r.step op).1.tree.size := by
  rcases step_eq r op with ⟨e, hsealed, -⟩ | ⟨-, heq⟩
  · exact absurd (hopen.symm.trans hsealed) Bool.false_ne_true
  · rw [heq]
    cases op with
    | group schema namePrefix plan =>
      rw [Operation.places, Router.perform]
      cases hadd : r.tree.add Tree.root schema none (.group namePrefix) with
      | error e => exact List.forall_mem_nil _
      | ok added =>
        obtain ⟨hsound, hgroup⟩ := h.tree.add_group h.holds_root hadd
        exact plan.places_carryOut hsound hgroup
    | routes plan => exact plan.places_carryOut h.tree h.holds_root
    | route | hidden | setting | controller | dispatch | findMatch | find | url | sealUp | isSealed
      | node | options => exact List.forall_mem_nil _

/-- **The nodes of a router stay**, and of them only the settings change. -/
theorem IsSound.get?_step (h : r.IsSound) (op : Operation) {n : Node}
    (hn : r.tree.get? id = some n) :
    ∃ settings, (r.step op).1.tree.get? id = some { n with settings } := by
  obtain ⟨ss, -, hold⟩ := (h.step op).2.old
  have hsame := hold id (List.getElem?_eq_some_iff.mp hn).1
  rw [Tree.get?_configure, hn, Option.map_some] at hsame
  rw [hsame, Tree.configured]
  split
  · exact ⟨_, rfl⟩
  · exact ⟨n.settings, rfl⟩

/-! ### Many operations -/

theorem IsSound.get?_runAll (h : r.IsSound) (ops : List Operation) {n : Node}
    (hn : r.tree.get? id = some n) :
    ∃ settings, (r.runAll ops).1.tree.get? id = some { n with settings } := by
  induction ops generalizing r n with
  | nil => exact ⟨n.settings, hn⟩
  | cons op ops ih =>
    obtain ⟨settings, hstep⟩ := h.get?_step op hn
    obtain ⟨later, hlater⟩ := ih (h.step op).1 hstep
    exact ⟨later, hlater⟩

theorem IsSound.size_le_runAll (h : r.IsSound) (ops : List Operation) :
    r.tree.size ≤ (r.runAll ops).1.tree.size := by
  induction ops generalizing r with
  | nil => exact Nat.le_refl _
  | cons op ops ih => exact Nat.le_trans (h.step op).2.size_le (ih (h.step op).1)

/-- **A number that was answered once** is the number of a node ever after. -/
theorem IsSound.numbers_runAll (h : r.IsSound) (ops : List Operation) :
    ∀ answer ∈ (r.runAll ops).2, ∀ id ∈ answer.numbers, id < (r.runAll ops).1.tree.size := by
  induction ops generalizing r with
  | nil => exact List.forall_mem_nil _
  | cons op ops ih =>
    have hsound := (h.step op).1
    refine List.forall_mem_cons.mpr ⟨fun id hid => ?_, ih hsound⟩
    exact Nat.lt_of_lt_of_le (h.numbers_step op id hid) (hsound.size_le_runAll ops)

/-- **The arena of a router is a tree, whatever operations have led to it.** What is registered or
set next is registered or set in the arena. Every number but that of the root is listed once, in the
list of its parent that fits; whatever operations follow, a node keeps all but its settings. Every
number that was answered is that of a cell, and so is every number that a path leads to, and that of
a group, as soon as its plan is carried out. Walks along the links have enough levels if they have
as many as there are cells, and find what the tree says: they end, and do not leave the arena. -/
theorem isTree_arena_runAll (options : Options) (ops later : List Operation) :
    let r := ((new options).runAll ops).1
    let a := r.tree.arena
    (∀ place schema name kind, a.push place schema name kind =
        (r.tree.add place schema name kind).map fun added => (added.1.arena, added.2)) ∧
      (∀ place ss, a.configure place ss = (r.tree.configure place ss).arena) ∧
      a.IsTree ∧
      (∀ k, a.listed.count k = if k ≠ Tree.root ∧ k < a.size then 1 else 0) ∧
      (∀ k n, a.node? k = some n →
        ∃ settings, (r.runAll later).1.tree.arena.node? k = some { n with settings }) ∧
      (∀ answer ∈ ((new options).runAll ops).2, ∀ id ∈ answer.numbers, id < a.size) ∧
      (∀ path method id m, (r.findMatch path method).outcome = .ok (id, m) → id < a.size) ∧
      (r.isSealed = false → ∀ op : Operation, ∀ id ∈ op.places r.tree,
        id < (r.step op).1.tree.arena.size) ∧
      ∀ depth, a.size ≤ depth →
        (∀ id < a.size, a.ancestorsWithin depth id = some (r.tree.chain id)) ∧
        (∀ name, a.findWithin depth Tree.root name = some (r.tree.find? name)) ∧
        (∀ view method path, r.tree.matchWithin view method depth Tree.root path =
          OptionT.lift (r.tree.match? view method path)) ∧
        ∀ view, ∀ id < a.size, ∀ params, r.tree.pathWithin view depth id params =
          OptionT.lift (r.tree.pathOf view (r.tree.chain id) params) := by
  intro r a
  have hsound : r.IsSound := isSound_runAll options ops
  have htree : a.IsTree := hsound.tree.isTree_arena
  have hsize : a.size = r.tree.size := Tree.size_arena r.tree
  refine ⟨fun _ => hsound.tree.push_arena, fun place ss => (Tree.arena_configure _ place ss).symm,
    htree, htree.count_listed, fun k n hn => ?_, ?_, fun path method id m hfound => ?_,
    fun hopen op => ?_, fun depth hdepth => ?_⟩
  · rw [Tree.node?_arena] at hn ⊢
    exact hsound.get?_runAll later hn
  · rw [hsize]
    exact (isSound_new options).numbers_runAll ops
  · rw [hsize]
    exact hsound.lt_size_of_findMatch hfound
  · rw [Tree.size_arena]
    exact hsound.places_step hopen op
  · rw [hsize] at hdepth ⊢
    have hroot : r.tree.size ≤ depth + Tree.root := hdepth
    refine ⟨fun id hid => ?_, fun name => ?_, fun view method path => ?_,
      fun view id hid params => ?_⟩
    · exact hsound.tree.ancestorsWithin_eq hid (Nat.lt_of_lt_of_le hid hdepth)
    · exact hsound.tree.findWithin_eq hsound.holds_root hroot
    · exact hsound.tree.matchWithin_eq hsound.holds_root hroot
    · exact hsound.tree.pathWithin_eq hid (Nat.lt_of_lt_of_le hid hdepth) params

/-- A group whose plan passes over a route that has a name twice, and ends at such a hidden route.
-/
def brokenOff : Operation :=
  .group "/a" (some "a.")
    (.step false (.route "/x" (some "x") none (.identifier "A@x") [])
      (.step true (.route "/y" (some "x") none (.identifier "A@y") [])
        (.step false (.hidden "/z" "z" []) (.step false (.hidden "/w" "z" []) .done))))

theorem isTree_arena_runAll_broken_off :
    let r := ((new {}).runAll [brokenOff, .route "/b" none none (.identifier "A@b")]).1
    r.tree.arena.IsTree ∧ r.tree.arena.children Tree.root .groups = [1] ∧
      r.tree.arena.children 1 .routes = [2] ∧ r.tree.arena.children 1 .hidden = [3] ∧
      r.tree.arena.children Tree.root .routes = [4] ∧ r.tree.arena.listed.count 3 = 1 ∧
      (∃ settings, (r.runAll [.setting (.host "h")]).1.tree.arena.node? 3 = some
        { id := 3, parent := some 1, schema := "/z", name := some "z", kind := .hidden, settings }) ∧
      r.tree.arena.findWithin 5 Tree.root "a.z" = some (some 3) := by
  intro r
  obtain ⟨-, -, htree, hcount, hstay, -, -, -, hwalks⟩ :=
    isTree_arena_runAll {} [brokenOff, .route "/b" none none (.identifier "A@b")]
      [.setting (.host "h")]
  exact ⟨htree, rfl, rfl, rfl, rfl, (hcount 3).trans rfl, hstay 3 _ rfl,
    ((hwalks 5 (Nat.le_refl 5)).2.1 "a.z").trans rfl⟩

end Router

end UrlRouting
