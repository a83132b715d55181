import UrlRouting.Proofs.Router.Arena
import UrlRouting.Proofs.Router.Trees

/-!
# Distinct names

A route shares its parent with routes of the same method, and a hidden route with hidden routes: of
these it must not share the name (`UrlRouting.Slot`). The names that are taken are not stored. They
are read off the children, and of the list of routes only those of the method count
(`UrlRouting.Arena.namesIn`).

A registration is refused if its name is taken, and for no other reason
(`UrlRouting.Tree.add_eq_error_iff`). So the names in a slot are distinct at any time
(`UrlRouting.Tree.Reachable.nodup_namesIn`). What is refused leaves no trace: a plan that passes over
it goes on from the same tree, and whole plans and runs come to the same as those from which
everything that was refused has been struck out (`UrlRouting.Plan.carryOut_accepted`,
`UrlRouting.Router.runAll_accepted`).
-/

namespace UrlRouting

/-! ### Slots -/

/-- The nodes in one parent that must not share names. -/
inductive Slot where
  /-- The routes of a method, or those that answer to all methods. -/
  | routes (method : Option Method)
  /-- The hidden routes. -/
  | hidden
  deriving DecidableEq

/-- The list in which the nodes of a slot are. -/
def Slot.bucket : Slot → Bucket
  | .routes _ => .routes
  | .hidden => .hidden

/-- The slot of a node; groups share names as they like. -/
def NodeKind.slot? : NodeKind → Option Slot
  | .route method _ => some (.routes method)
  | .hidden => some .hidden
  | .root | .group _ => none

/-- What is in a slot is in its list. -/
theorem NodeKind.bucket_eq {kind : NodeKind} {slot : Slot} (h : kind.slot? = some slot) :
    kind.bucket = slot.bucket := by
  rcases kind with _ | _ | ⟨method, action⟩ | _
  · cases h
  · cases h
  · obtain rfl := Option.some.inj h
    rfl
  · obtain rfl := Option.some.inj h
    rfl

/-- A step that registers a node registers it in a slot. -/
theorem Registration.Registers.exists_slot {r : Registration} {schema : String}
    {name : Option String} {kind : NodeKind} {ss : List Setting}
    (hr : r.Registers schema name kind ss) : ∃ slot, kind.slot? = some slot := by
  rcases hr with ⟨_, _, method, _, _⟩ | _
  · exact ⟨.routes method, rfl⟩
  · exact ⟨.hidden, rfl⟩

/-- Does the node stand in a place and a slot? -/
def Node.isAt (n : Node) (place : NodeId) (slot : Slot) : Bool :=
  n.isIn place && decide (n.kind.slot? = some slot)

/-- The names in a slot of a place, in the order of registration. -/
def Tree.namesIn (t : Tree) (place : NodeId) (slot : Slot) : List String :=
  (t.nodes.filter (·.isAt place slot)).filterMap (·.name)

/-- The names in a slot, read off the list of the parent. -/
def Arena.namesIn (a : Arena) (place : NodeId) (slot : Slot) : List String :=
  (((a.children place slot.bucket).filterMap a.node?).filter fun n =>
    decide (n.kind.slot? = some slot)).filterMap (·.name)

namespace Tree

section

variable {t t' : Tree} {place id : NodeId} {slot : Slot} {schema taken : String}
  {name : Option String} {kind : NodeKind} {e : RouterError}

theorem mem_namesIn : taken ∈ t.namesIn place slot ↔
    ∃ n ∈ t.nodes, n.parent = some place ∧ n.kind.slot? = some slot ∧ n.name = some taken := by
  simp [namesIn, Node.isAt, Node.isIn, and_assoc]

/-- **The lists of the parent have the names of a slot.** -/
theorem IsSound.namesIn_arena (h : t.IsSound) (place : NodeId) (slot : Slot) :
    t.arena.namesIn place slot = t.namesIn place slot := by
  have hnode {n : Node} (hn : n ∈ t.nodes) : t.arena.node? n.id = some n :=
    (node?_arena t n.id).trans (h.mem_iff.mp hn)
  have hlist : (t.arena.children place slot.bucket).filterMap t.arena.node? =
      t.nodes.filter fun n => n.isIn place && decide (n.kind.bucket = slot.bucket) := by
    rw [h.children_arena, List.filterMap_map]
    refine (List.filterMap_congr fun n hn => ?_).trans List.filterMap_some
    exact hnode (List.mem_filter.mp hn).1
  rw [Arena.namesIn, hlist, List.filter_filter, namesIn]
  refine congrArg _ (List.filter_congr fun n _ => ?_)
  by_cases hslot : n.kind.slot? = some slot
  · simp [Node.isAt, hslot, NodeKind.bucket_eq hslot]
  · simp [Node.isAt, hslot]

/-! ### What is refused -/

/-- A sibling with the name is one in the slot. -/
theorem clashes_iff (hslot : kind.slot? = some slot) :
    t.clashes place taken kind = true ↔ taken ∈ t.namesIn place slot := by
  rw [mem_namesIn, clashes, List.any_eq_true]
  refine exists_congr fun n => and_congr_right fun _ => ?_
  rcases kind with _ | _ | ⟨method, action⟩ | _
  · cases hslot
  · cases hslot
  · obtain rfl := Option.some.inj hslot
    rcases hk : n.kind with _ | _ | ⟨own, act⟩ | _ <;>
      simp [Node.isIn, Node.answersTo, NodeKind.slot?, hk, and_comm, and_left_comm]
  · obtain rfl := Option.some.inj hslot
    rcases hk : n.kind with _ | _ | _ | _ <;>
      simp [Node.isIn, Node.isHidden, NodeKind.slot?, hk]

/-- **A registration is refused just if its name is taken.** -/
theorem add_eq_error_iff (hslot : kind.slot? = some slot) :
    t.add place schema name kind = .error e ↔
      ∃ taken ∈ t.namesIn place slot, name = some taken ∧ e = .duplicateRouteName taken := by
  simp only [← clashes_iff hslot]
  rw [add]
  rcases name with _ | name
  · simp
  · rw [Option.filter_some]
    by_cases hclash : t.clashes place name kind = true
    · rw [if_pos hclash]
      constructor
      · intro h
        exact ⟨name, hclash, rfl, (Except.error.inj h).symm⟩
      · rintro ⟨_, -, hname, rfl⟩
        rw [Option.some.inj hname]
    · rw [if_neg hclash]
      constructor
      · intro h
        cases h
      · rintro ⟨_, htaken, hname, -⟩
        exact absurd (Option.some.inj hname ▸ htaken) hclash

/-- A node without a name is never refused. -/
theorem add_unnamed (t : Tree) (place : NodeId) (schema : String) (kind : NodeKind) :
    ∃ t', t.add place schema none kind = .ok (t', t.size) := ⟨_, rfl⟩

/-! ### Names stay distinct -/

/-- The names after a registration: those before it, and in the slot of the new node its name. -/
theorem namesIn_add (hadd : t.add place schema name kind = .ok (t', id)) (p : NodeId)
    (slot : Slot) : t'.namesIn p slot =
      t.namesIn p slot ++ if p = place ∧ kind.slot? = some slot then name.toList else [] := by
  obtain ⟨-, rfl⟩ := add_eq_ok hadd
  rw [namesIn, List.filter_append, List.filterMap_append, ← namesIn]
  refine congrArg _ ?_
  by_cases hat : p = place ∧ kind.slot? = some slot
  · rcases name <;> simp [Node.isAt, Node.isIn, hat]
  · rw [if_neg hat]
    simp only [List.filterMap_eq_nil_iff, List.mem_filter, List.mem_singleton]
    rintro n ⟨rfl, hn⟩
    simp only [Node.isAt, Node.isIn, Bool.and_eq_true, beq_iff_eq, Option.some.injEq,
      decide_eq_true_eq] at hn
    exact absurd ⟨hn.1.symm, hn.2⟩ hat

theorem namesIn_configure (t : Tree) (place : NodeId) (ss : List Setting) (p : NodeId)
    (slot : Slot) : (t.configure place ss).namesIn p slot = t.namesIn p slot := by
  rw [namesIn, nodes_configure, List.filter_map, List.filterMap_map, namesIn]
  simp only [Function.comp_def, Node.isAt, Node.isIn, configured_parent, configured_kind,
    configured_name]

/-- **In a reachable tree the names in a slot are distinct.** -/
theorem Reachable.nodup_namesIn (h : t.Reachable) (p : NodeId) (slot : Slot) :
    (t.namesIn p slot).Nodup := by
  induction h with
  | empty => exact List.nodup_nil
  | @add t t' place id schema name kind _ _ _ hadd ih =>
    rw [namesIn_add hadd]
    split
    · next hat =>
      -- a name that is registered has not been taken
      obtain ⟨rfl, hslot⟩ := hat
      rcases name with _ | name
      · rwa [Option.toList_none, List.append_nil]
      · refine List.nodup_append.mpr ⟨ih, List.nodup_singleton name, fun a ha b hb => ?_⟩
        obtain rfl := List.mem_singleton.mp hb
        rintro rfl
        rw [(add_eq_error_iff hslot).mpr ⟨a, ha, rfl, rfl⟩] at hadd
        cases hadd
    · rwa [List.append_nil]
  | configure place ss _ ih => rwa [namesIn_configure]

end

end Tree

/-! ### What is refused leaves no trace -/

/-- **A plan without what is refused of it.** -/
def Plan.accepted : Plan → Tree → NodeId → Plan
  | .done, _, _ => .done
  | .step lenient r rest, t, place =>
    match r.carryOut t place with
    | .ok (t, _) => .step lenient r (rest.accepted t place)
    | .error _ => if lenient then rest.accepted t place else .done
  | .group lenient schema namePrefix inner rest, t, place =>
    match t.add place schema none (.group namePrefix) with
    | .error _ => .done
    | .ok (t, id) =>
      let inside := inner.carryOut t id
      .group lenient schema namePrefix (inner.accepted t id)
        (if inside.failure.isNone || lenient then rest.accepted inside.tree place else .done)

/-- **What is refused of a plan leaves no trace**: without it the plan leads to the same tree, and
nothing of it is refused. -/
theorem Plan.carryOut_accepted (plan : Plan) (t : Tree) (place : NodeId) :
    ((plan.accepted t place).carryOut t place).tree = (plan.carryOut t place).tree ∧
      ((plan.accepted t place).carryOut t place).failure = none := by
  induction plan generalizing t place with
  | done => exact ⟨rfl, rfl⟩
  | step lenient r rest ih =>
    rw [accepted, carryOut]
    rcases hr : r.carryOut t place with e | ⟨t₁, id⟩
    · dsimp only
      split
      · exact ih t place
      · exact ⟨rfl, rfl⟩
    · dsimp only
      rw [carryOut, hr]
      exact ih t₁ place
  | group lenient schema namePrefix inner rest ih1 ih2 =>
    rw [accepted, carryOut]
    rcases hadd : t.add place schema none (.group namePrefix) with e | ⟨t₁, id⟩
    · exact ⟨rfl, rfl⟩
    · obtain ⟨hinside, hnone⟩ := ih1 t₁ id
      dsimp only
      rw [carryOut, hadd]
      dsimp only
      rw [hnone, hinside]
      rcases (inner.carryOut t₁ id).failure with _ | e
      · exact ih2 _ place
      · rcases lenient with _ | _
        · exact ⟨rfl, rfl⟩
        · exact ih2 _ place

/-- The registration in the root that an operation is. -/
def Operation.registration? : Operation → Option Registration
  | .route schema name method action => some (.route schema name method action [])
  | .hidden schema name => some (.hidden schema name [])
  | _ => none

/-- Has a registration been refused? -/
def Answer.isRefusal : Answer → Bool
  | .registered (.error _) => true
  | _ => false

namespace Router

variable {r : Router} {op : Operation}

/-- A sealed router stays as it is, whatever is to be registered. -/
theorem step_of_sealed (hsealed : r.isSealed = true) (htarget : op.target?.isSome) :
    (r.step op).1 = r := by
  rcases step_eq r op with ⟨e, -, -, heq⟩ | ⟨hopen, -⟩
  · rw [heq]
  · exact absurd ((hopen htarget).symm.trans hsealed) Bool.false_ne_true

theorem step_of_open (hopen : r.isSealed = false) (op : Operation) : r.step op = r.perform op := by
  rcases step_eq r op with ⟨e, hsealed, -⟩ | ⟨-, heq⟩
  · exact absurd (hopen.symm.trans hsealed) Bool.false_ne_true
  · exact heq

theorem perform_of_registration {reg : Registration} (h : op.registration? = some reg) :
    r.perform op = r.register reg := by
  cases op with
  | route | hidden =>
    obtain rfl := Option.some.inj h
    rfl
  | _ => cases h

/-- **A registration that is refused leaves the router as it is.** -/
theorem step_of_refusal (h : (r.step op).2.isRefusal = true) : (r.step op).1 = r := by
  have hregister {reg : Registration} (h : (r.register reg).2.isRefusal = true) :
      (r.register reg).1 = r := by
    rw [register] at h ⊢
    rcases hreg : reg.carryOut r.tree Tree.root with e | ⟨t, id⟩
    · rfl
    · rw [hreg] at h
      cases h
  rcases step_eq r op with ⟨e, -, -, heq⟩ | ⟨-, heq⟩
  · rw [heq]
  · rw [heq] at h ⊢
    cases op with
    | route | hidden => exact hregister h
    | group schema namePrefix plan =>
      rw [perform] at h
      split at h <;> cases h
    | sealUp =>
      rw [perform] at h
      split at h <;> cases h
    | routes | setting | controller | dispatch | findMatch | find | url | isSealed | node
      | options => cases h

/-- An operation without what is refused of it; nothing is left of a registration that is refused. -/
def acceptedOf (r : Router) (op : Operation) : List Operation :=
  match op with
  | .group schema namePrefix plan =>
    match r.tree.add Tree.root schema none (.group namePrefix) with
    | .error _ => []
    | .ok (t, id) => [.group schema namePrefix (plan.accepted t id)]
  | .routes plan => [.routes (plan.accepted r.tree Tree.root)]
  | _ => if (r.step op).2.isRefusal then [] else [op]

/-- **Operations without what is refused of them.** -/
def accepted (r : Router) : List Operation → List Operation
  | [] => []
  | op :: rest => r.acceptedOf op ++ (r.step op).1.accepted rest

/-- What is refused of an operation leaves no trace. -/
theorem runAll_acceptedOf (r : Router) (op : Operation) :
    (r.runAll (r.acceptedOf op)).1 = (r.step op).1 := by
  have hone (op : Operation) : (r.runAll [op]).1 = (r.step op).1 := rfl
  have hsingle : (r.runAll (if (r.step op).2.isRefusal then [] else [op])).1 = (r.step op).1 := by
    split
    · next hrefusal => exact (step_of_refusal hrefusal).symm
    · rfl
  cases op with
  | group schema namePrefix plan =>
    rw [acceptedOf]
    rcases hadd : r.tree.add Tree.root schema none (.group namePrefix) with e | ⟨t, id⟩
    · cases hadd
    · rw [hone]
      rcases hsealed : r.isSealed with _ | _
      · rw [step_of_open hsealed, step_of_open hsealed, perform, perform, hadd]
        exact congrArg (fun t => { r with tree := t }) (plan.carryOut_accepted t id).1
      · rw [step_of_sealed hsealed rfl, step_of_sealed hsealed rfl]
  | routes plan =>
    rw [acceptedOf, hone]
    rcases hsealed : r.isSealed with _ | _
    · rw [step_of_open hsealed, step_of_open hsealed, perform, perform]
      exact congrArg (fun t => { r with tree := t }) (plan.carryOut_accepted r.tree Tree.root).1
    · rw [step_of_sealed hsealed rfl, step_of_sealed hsealed rfl]
  | _ => exact hsingle

/-- **What is refused in a run leaves no trace.** -/
theorem runAll_accepted (r : Router) (ops : List Operation) :
    (r.runAll (r.accepted ops)).1 = (r.runAll ops).1 := by
  induction ops generalizing r with
  | nil => rfl
  | cons op ops ih => rw [accepted, runAll_append, runAll_acceptedOf, ih, runAll_cons]

end Router

/-- **A registration is refused just if its name is taken, and what is refused changes nothing.**
In a reachable tree the names in every slot of every place are distinct, and the lists of the place
have them. A route or a hidden route is refused if it has a name that is one of those in its slot,
and for no other reason; the arena refuses the same. If it is refused, a plan ends with the tree and
the lists as they were, or goes on from there if it is lenient, and a router is the same as before.
The node that is registered next then has the number that the refused one would have had. -/
theorem Tree.Reachable.refused_iff_taken {t : Tree} (h : t.Reachable) :
    (∀ place slot, (t.namesIn place slot).Nodup ∧
      t.arena.namesIn place slot = t.namesIn place slot) ∧
      ∀ place reg schema name kind ss, Registration.Registers reg schema name kind ss →
        ∃ slot, kind.slot? = some slot ∧
        (∀ e, reg.carryOut t place = .error e ↔
          ∃ taken ∈ t.namesIn place slot, name = some taken ∧ e = .duplicateRouteName taken) ∧
        (∀ e, t.arena.push place schema name kind = .error e ↔ reg.carryOut t place = .error e) ∧
        ∀ e, reg.carryOut t place = .error e →
          (∀ rest, (Plan.step false reg rest).carryOut t place =
            ⟨t, .step (.error e) .done, some e⟩) ∧
          (∀ rest, (Plan.step true reg rest).carryOut t place =
            { rest.carryOut t place with
              report := .step (.error e) (rest.carryOut t place).report }) ∧
          (∀ (r : Router) op, r.tree = t → r.isSealed = false → op.registration? = some reg →
            place = root → r.step op = (r, .registered (.error e))) ∧
          (∃ t', t.add place schema none kind = .ok (t', t.size)) ∧
          ∀ place' schema' name' kind' t' id,
            t.add place' schema' name' kind' = .ok (t', id) → id = t.size := by
  refine ⟨fun place slot => ⟨h.nodup_namesIn place slot, h.isSound.namesIn_arena place slot⟩,
    fun place reg schema name kind ss hreg => ?_⟩
  obtain ⟨slot, hslot⟩ := hreg.exists_slot
  -- once a node has been added, nothing of what is carried out can fail
  have hcarry : ∀ e, reg.carryOut t place = .error e ↔ t.add place schema name kind = .error e := by
    intro e
    rw [hreg.carryOut_eq]
    rcases t.add place schema name kind with e' | added <;> simp [Except.map]
  refine ⟨slot, hslot, fun e => (hcarry e).trans (add_eq_error_iff hslot), fun e => ?_,
    fun e he => ⟨fun rest => ?_, fun rest => ?_, fun r op ht hopen hop hplace => ?_,
      add_unnamed t place schema kind, fun _ _ _ _ _ _ hadd => (add_eq_ok hadd).1⟩⟩
  · rw [hcarry, h.isSound.push_arena]
    rcases t.add place schema name kind with e' | added <;> simp [Except.map]
  · rw [Plan.carryOut, he]
    rfl
  · rw [Plan.carryOut, he]
    rfl
  · subst ht hplace
    rw [Router.step_of_open hopen, Router.perform_of_registration hop, Router.register, he]

/-- In a group there is a route for all methods, and a hidden route: the name of the one is taken
for routes of all methods, that of the other for hidden routes, and for nothing else. -/
theorem Tree.Reachable.refused_iff_taken_in_group :
    let t := ((Router.new {}).runAll [Router.brokenOff]).1.tree
    let reg (method : Option Method) : Registration :=
      .route "/y" (some "x") method (.identifier "A@y") []
    (t.namesIn 1 (.routes none)).Nodup ∧
      (reg none).carryOut t 1 = .error (.duplicateRouteName "x") ∧
      (∀ e, (reg (some .get)).carryOut t 1 ≠ .error e) ∧
      (∀ e, (Registration.hidden "/w" "x" []).carryOut t 1 ≠ .error e) ∧
      ((Plan.step true (reg none) .done).carryOut t 1).tree = t := by
  intro t reg
  obtain ⟨hnames, hrefused⟩ := Tree.Reachable.refused_iff_taken
    (Router.tree_reachable {} [Router.brokenOff] : t.Reachable)
  obtain ⟨_, hslot, hany, -, hafter⟩ := hrefused 1 (reg none) _ _ _ _ (.route ..)
  obtain rfl := Option.some.inj hslot
  obtain ⟨_, hslot, hget, -⟩ := hrefused 1 (reg (some .get)) _ _ _ _ (.route ..)
  obtain rfl := Option.some.inj hslot
  obtain ⟨_, hslot, hhidden, -⟩ := hrefused 1 (.hidden "/w" "x" []) _ _ _ _ (.hidden ..)
  obtain rfl := Option.some.inj hslot
  have hx : (reg none).carryOut t 1 = .error (.duplicateRouteName "x") :=
    (hany _).mpr ⟨"x", List.mem_singleton_self "x", rfl, rfl⟩
  refine ⟨(hnames 1 _).1, hx, fun e he => ?_, fun e he => ?_, ?_⟩
  · obtain ⟨taken, htaken, -⟩ := (hget e).mp he
    exact absurd htaken List.not_mem_nil
  · obtain ⟨taken, htaken, hname, -⟩ := (hhidden e).mp he
    obtain rfl := Option.some.inj hname
    exact absurd htaken (by decide)
  · rw [(hafter _ hx).2.1 .done]
    rfl

end UrlRouting
