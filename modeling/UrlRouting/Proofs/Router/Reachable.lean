import UrlRouting.Proofs.Router.Questions
import UrlRouting.Proofs.Router.Registration
import UrlRouting.Proofs.Tree.Overrides
import UrlRouting.Router.Operation

/-!
# Reachable routers

What holds of every router that operations lead to (`UrlRouting.Router.IsSound`): its tree is one,
what it keeps of a node is what the node has compiled to with some settings, and if it is sealed,
all its nodes are kept and do compile. A new router is sound, one operation keeps a router sound,
and so do all that follow (`UrlRouting.Router.IsSound.step`, `UrlRouting.Router.isSound_runAll`).

An operation changes the tree by registration only, and by what it sets on the root itself
(`UrlRouting.Router.step_extends`); what it keeps does not change the view of the compiled nodes
(`UrlRouting.Router.view_keep`).
-/

namespace UrlRouting

/-- What an operation sets on the root itself. -/
def Operation.rootSettings : Operation → List Setting
  | .setting s => [s]
  | .routes plan => plan.ownSettings
  | _ => []

/-- What is set for a parameter stays set when a tree is extended. -/
theorem Tree.Extends.override_eq {t t' : Tree} {place id : NodeId} {given : List Setting}
    {name : String} (hext : t.Extends place given t') (h : t.IsSound) (h' : t'.IsSound)
    (hid : id < t.size) (hnone : t'.override id name = {}) : t.override id name = {} := by
  obtain ⟨ss, -, hchain⟩ := hext.chain_eq h h' hid
  have hstays {α : Type} (pick : Settings → Option α)
      (hpick : ∀ s : Settings, pick (ss.foldl Setting.apply s) = none → pick s = none)
      (hlater : t'.nearest? id pick = none) : t.nearest? id pick = none := by
    rw [nearest?, List.findSome?_eq_none_iff] at hlater ⊢
    intro n hn
    have hn' := hlater _ (hchain ▸ List.mem_map_of_mem hn)
    rw [configured] at hn'
    split at hn'
    · exact hpick _ hn'
    · exact hn'
  have hpattern : t'.pattern? id name = none := congrArg Override.pattern hnone
  have htype : t'.typeName? id name = none := congrArg Override.typeName hnone
  rw [override, pattern?, typeName?,
    hstays (·.patterns.lookup name) (fun _ => Setting.lookup_patterns_eq_none) hpattern,
    hstays (·.types.lookup name) (fun _ => Setting.lookup_types_eq_none) htype]

/-- **Settings that were in force at a node** at some time. What is set for a name stays set, so
where nothing is set now, nothing was. -/
structure Tree.WasCompiledWith (t : Tree) (defaultPattern : String) (id : NodeId)
    (ctx : CompileContext) : Prop where
  /-- The default pattern of a router does not change. -/
  defaultPattern : ctx.defaultPattern = defaultPattern
  /-- Nothing was set that is not set now. -/
  overrides : ∀ name, t.override id name = {} → ctx.overrides name = {}

namespace Router

variable {r : Router} {id : NodeId} {ids : List NodeId}

/-! ### What is kept -/

@[simp] theorem tree_keepNode (r : Router) (id : NodeId) : (r.keepNode id).tree = r.tree := by
  rw [keepNode]
  split <;> rfl

@[simp] theorem options_keepNode (r : Router) (id : NodeId) :
    (r.keepNode id).options = r.options := by
  rw [keepNode]
  split <;> rfl

@[simp] theorem controllers_keepNode (r : Router) (id : NodeId) :
    (r.keepNode id).controllers = r.controllers := by
  rw [keepNode]
  split <;> rfl

@[simp] theorem isSealed_keepNode (r : Router) (id : NodeId) :
    (r.keepNode id).isSealed = r.isSealed := by
  rw [keepNode]
  split <;> rfl

theorem lookup_keepNode (r : Router) (id other : NodeId) :
    (r.keepNode id).kept.lookup other =
      if other = id then some (r.view id) else r.kept.lookup other := by
  rw [keepNode]
  by_cases hkept : (r.kept.lookup id).isSome
  · obtain ⟨result, hresult⟩ := Option.isSome_iff_exists.mp hkept
    rw [if_pos hkept]
    split
    · next heq => rw [heq, hresult, view, hresult]
    · rfl
  · have hnone : r.kept.lookup id = none := Option.not_isSome_iff_eq_none.mp hkept
    rw [if_neg hkept, List.lookup_append]
    by_cases heq : other = id
    · subst heq
      simp [hnone]
    · have hne : (other == id) = false := beq_eq_false_iff_ne.mpr heq
      simp [List.lookup_cons, hne, heq]

/-- **Keeping a node does not change what is seen.** -/
@[simp] theorem view_keepNode (r : Router) (id : NodeId) : (r.keepNode id).view = r.view := by
  funext other
  rw [view, lookup_keepNode]
  by_cases heq : other = id
  · rw [if_pos heq, heq]
  · rw [if_neg heq, tree_keepNode, options_keepNode, view]

@[simp] theorem tree_keep (r : Router) (ids : List NodeId) : (r.keep ids).tree = r.tree := by
  induction ids generalizing r with
  | nil => rfl
  | cons id ids ih => exact (ih (r.keepNode id)).trans (tree_keepNode r id)

@[simp] theorem options_keep (r : Router) (ids : List NodeId) :
    (r.keep ids).options = r.options := by
  induction ids generalizing r with
  | nil => rfl
  | cons id ids ih => exact (ih (r.keepNode id)).trans (options_keepNode r id)

@[simp] theorem controllers_keep (r : Router) (ids : List NodeId) :
    (r.keep ids).controllers = r.controllers := by
  induction ids generalizing r with
  | nil => rfl
  | cons id ids ih => exact (ih (r.keepNode id)).trans (controllers_keepNode r id)

@[simp] theorem isSealed_keep (r : Router) (ids : List NodeId) :
    (r.keep ids).isSealed = r.isSealed := by
  induction ids generalizing r with
  | nil => rfl
  | cons id ids ih => exact (ih (r.keepNode id)).trans (isSealed_keepNode r id)

@[simp] theorem view_keep (r : Router) (ids : List NodeId) : (r.keep ids).view = r.view := by
  induction ids generalizing r with
  | nil => rfl
  | cons id ids ih => exact (ih (r.keepNode id)).trans (view_keepNode r id)

/-- **What is kept afterwards**: what was kept before, and what is seen of the new nodes. -/
theorem lookup_keep (r : Router) (ids : List NodeId) (id : NodeId) :
    (r.keep ids).kept.lookup id =
      if id ∈ ids then some (r.view id) else r.kept.lookup id := by
  induction ids generalizing r with
  | nil => rfl
  | cons first ids ih =>
    have hrest := ih (r.keepNode first)
    rw [view_keepNode, lookup_keepNode] at hrest
    refine hrest.trans ?_
    by_cases hid : id ∈ ids
    · rw [if_pos hid, if_pos (List.mem_cons_of_mem first hid)]
    · by_cases heq : id = first
      · subst heq
        rw [if_neg hid, if_pos rfl, if_pos List.mem_cons_self]
      · rw [if_neg hid, if_neg heq, if_neg fun hmem => (List.mem_cons.mp hmem).elim heq hid]

theorem view_of_lookup {result : Except SchemaError CompiledNode}
    (h : r.kept.lookup id = some result) : r.view id = result := by
  rw [view, h]

/-! ### Sound routers -/

/-- **A router that operations may lead to.** -/
structure IsSound (r : Router) : Prop where
  /-- The tree is one. -/
  tree : r.tree.IsSound
  /-- What is kept of a node is what it has compiled to at some time. -/
  kept : ∀ {id result}, r.kept.lookup id = some result →
    ∃ n ctx, r.tree.get? id = some n ∧
      r.tree.WasCompiledWith r.options.defaultPattern id ctx ∧ result = n.compile ctx
  /-- A sealed router keeps all its nodes, and all of them compile. -/
  complete : r.isSealed = true → ∀ id < r.tree.size, ∃ c, r.kept.lookup id = some (.ok c)

theorem isSound_new (options : Options) : (new options).IsSound where
  tree := Tree.isSound_empty
  kept h := nomatch h
  complete h := nomatch h

/-- **What is seen of a node of a sound router** is what it compiles to with some settings. -/
theorem IsSound.view_eq (h : r.IsSound) {n : Node} (hn : r.tree.get? id = some n) :
    ∃ ctx, r.tree.WasCompiledWith r.options.defaultPattern id ctx ∧
      r.view id = n.compile ctx := by
  cases hkept : r.kept.lookup id with
  | some result =>
    obtain ⟨m, ctx, hm, hctx, rfl⟩ := h.kept hkept
    obtain rfl : m = n := Option.some.inj (hm.symm.trans hn)
    exact ⟨ctx, hctx, view_of_lookup hkept⟩
  | none =>
    refine ⟨r.tree.compileContext id r.options.defaultPattern, ⟨rfl, fun _ hnone => hnone⟩, ?_⟩
    rw [view, hkept]
    dsimp only
    rw [Tree.compileNode, hn]

/-- Keeping nodes of the tree keeps a router sound. -/
theorem IsSound.keep (h : r.IsSound) (hids : ∀ id ∈ ids, id < r.tree.size) :
    (r.keep ids).IsSound where
  tree := tree_keep r ids ▸ h.tree
  kept {id result} hresult := by
    rw [tree_keep, options_keep]
    rw [lookup_keep] at hresult
    split at hresult
    · next hid =>
      obtain ⟨n, hn⟩ : ∃ n, r.tree.get? id = some n := ⟨_, List.getElem?_eq_getElem (hids id hid)⟩
      obtain ⟨ctx, hctx, hview⟩ := h.view_eq hn
      exact ⟨n, ctx, hn, hctx, (Option.some.inj hresult).symm.trans hview⟩
    · exact h.kept hresult
  complete hsealed id hid := by
    rw [isSealed_keep] at hsealed
    rw [tree_keep] at hid
    obtain ⟨c, hc⟩ := h.complete hsealed id hid
    refine ⟨c, ?_⟩
    rw [lookup_keep]
    split
    · rw [view_of_lookup hc]
    · exact hc

/-- Extending the tree of a router that is not sealed keeps it sound. -/
theorem IsSound.extend (h : r.IsSound) (hopen : r.isSealed = false) {t : Tree} {place : NodeId}
    {given : List Setting} (ht : t.IsSound) (hext : r.tree.Extends place given t) :
    ({ r with tree := t } : Router).IsSound where
  tree := ht
  kept {id result} hresult := by
    obtain ⟨n, ctx, hn, hctx, rfl⟩ := h.kept hresult
    obtain ⟨ss, -, hold⟩ := hext.old
    have hid : id < r.tree.size := (List.getElem?_eq_some_iff.mp hn).1
    refine ⟨Tree.configured place ss n, ctx, ?_, ⟨hctx.defaultPattern, fun name hnone => ?_⟩, ?_⟩
    · exact (hold id hid).trans (by rw [Tree.get?_configure, hn, Option.map_some])
    · exact hctx.overrides name (hext.override_eq h.tree ht hid hnone)
    · exact (Node.compile_congr (Tree.configured_schema place ss n)
        (Tree.configured_kind place ss n) (fun p _ => ⟨fun _ => rfl, fun _ => rfl⟩) rfl).symm
  complete hsealed := absurd (hopen.symm.trans hsealed) nofun

/-! ### One operation -/

/-- The root may hold nodes. -/
theorem IsSound.holds_root (h : r.IsSound) : r.tree.Holds Tree.root := by
  obtain ⟨n, hn, hkind, -⟩ := h.tree.atRoot
  refine ⟨n, hn, ?_⟩
  rw [Node.holds, hkind]

/-- **A router that has come out of another one**: it is sound, and its tree is that of the other
one, extended by registration and by what is set on the root. -/
structure Extends (r : Router) (given : List Setting) (r' : Router) : Prop where
  /-- It is sound. -/
  sound : r'.IsSound
  /-- Its tree is extended. -/
  tree : r.tree.Extends Tree.root given r'.tree

/-- A sound router comes out of itself. -/
theorem IsSound.extends_self (h : r.IsSound) (given : List Setting) : r.Extends given r :=
  ⟨h, Tree.Extends.refl _ _ _⟩

/-- A question keeps nodes of the tree. -/
theorem IsSound.extends_keep (h : r.IsSound) (hids : ∀ id ∈ ids, id < r.tree.size)
    (given : List Setting) : r.Extends given (r.keep ids) :=
  ⟨h.keep hids, tree_keep r ids ▸ Tree.Extends.refl _ _ _⟩

/-- A registration in the root is carried out or leaves the router as it is. -/
theorem IsSound.extends_register (h : r.IsSound) (hopen : r.isSealed = false)
    (reg : Registration) : r.Extends reg.ownSettings (r.register reg).1 := by
  rw [register]
  cases hreg : reg.carryOut r.tree Tree.root with
  | error e => exact h.extends_self _
  | ok done =>
    obtain ⟨hsound, hext⟩ := reg.carryOut_extends h.tree h.holds_root hreg
    exact ⟨h.extend hopen hsound hext, hext⟩

/-- A group is added, and then its plan is carried out in it. What the plan sets is set on the
group. -/
theorem IsSound.extends_group (h : r.IsSound) (hopen : r.isSealed = false) {schema : String}
    {namePrefix : Option String} {t : Tree} {id : NodeId} (plan : Plan)
    (hadd : r.tree.add Tree.root schema none (.group namePrefix) = .ok (t, id)) :
    r.Extends [] { r with tree := (plan.carryOut t id).tree } := by
  obtain ⟨hsound, hgroup⟩ := h.tree.add_group h.holds_root hadd
  obtain ⟨hplan, hext⟩ := plan.carryOut_extends hsound hgroup
  have hext : r.tree.Extends Tree.root [] (plan.carryOut t id).tree :=
    (Tree.extends_add hadd).elsewhere hsound (Nat.le_of_eq (Tree.add_eq_ok hadd).1.symm) hext
  exact ⟨h.extend hopen hplan hext, hext⟩

/-- A router is sealed if all its nodes compile. -/
theorem IsSound.extends_sealUp (h : r.IsSound) : r.Extends [] (r.perform .sealUp).1 := by
  obtain ⟨hsound, hext⟩ := h.extends_keep sealUp_keeps.nodes []
  rw [Router.perform]
  split
  · next hok =>
    refine ⟨⟨hsound.tree, hsound.kept, fun _ id hid => ?_⟩, hext⟩
    change id < (r.keep _).tree.size at hid
    rw [tree_keep] at hid
    change ∃ c, (r.keep _).kept.lookup id = _
    cases hsealed : r.isSealed with
    | true => exact hsound.complete ((isSealed_keep r _).trans hsealed) id (tree_keep r _ ▸ hid)
    | false =>
      obtain ⟨hids, hall⟩ := sealUp_eq_ok hsealed hok
      obtain ⟨c, hc⟩ := hall id hid
      exact ⟨c, by rw [lookup_keep, hids, if_pos (List.mem_range.mpr hid), hc]⟩
  · exact ⟨hsound, hext⟩

/-- **An operation of an open router extends the tree** by what it sets on the root, and keeps the
router sound. -/
theorem IsSound.perform (h : r.IsSound) (op : Operation)
    (hopen : op.target?.isSome → r.isSealed = false) :
    r.Extends op.rootSettings (r.perform op).1 := by
  cases op with
  | route schema name method action =>
    exact h.extends_register (hopen rfl) (.route schema name method action [])
  | hidden schema name => exact h.extends_register (hopen rfl) (.hidden schema name [])
  | group schema namePrefix plan =>
    rw [Router.perform]
    cases hadd : r.tree.add Tree.root schema none (.group namePrefix) with
    | error e => exact h.extends_self _
    | ok added => exact h.extends_group (hopen rfl) plan hadd
  | routes plan =>
    obtain ⟨hsound, hext⟩ := plan.carryOut_extends h.tree h.holds_root
    exact ⟨h.extend (hopen rfl) hsound hext, hext⟩
  | setting s =>
    have hext : r.tree.Extends Tree.root [s] (r.tree.configure Tree.root [s]) :=
      Tree.extends_configure List.mem_cons_self
    exact ⟨h.extend (hopen rfl) (h.tree.configure Tree.root [s]) hext, hext⟩
  | controller name c => exact ⟨⟨h.tree, h.kept, h.complete⟩, Tree.Extends.refl _ _ _⟩
  | dispatch path method nesting =>
    exact h.extends_keep (dispatchUpTo_keeps h.tree nesting path method).nodes _
  | findMatch path method => exact h.extends_keep (findMatch_keeps h.tree path method).nodes _
  | url name params absolute =>
    exact h.extends_keep (url_keeps h.tree name params absolute).nodes _
  | sealUp => exact h.extends_sealUp
  | find name => exact h.extends_self _
  | isSealed => exact h.extends_self _
  | node id => exact h.extends_self _
  | options => exact h.extends_self _

/-- What an operation does to a router: it is refused, or carried out. -/
theorem step_eq (r : Router) (op : Operation) :
    (∃ e, r.isSealed = true ∧ op.target?.isSome ∧ r.step op = (r, op.refusal e)) ∨
      ((op.target?.isSome → r.isSealed = false) ∧ r.step op = r.perform op) := by
  rw [step]
  cases htarget : op.target? with
  | none => exact .inr ⟨nofun, rfl⟩
  | some target =>
    cases hsealed : r.isSealed with
    | true => exact .inl ⟨_, rfl, rfl, rfl⟩
    | false => exact .inr ⟨fun _ => rfl, rfl⟩

/-- **One operation keeps a router sound**, and extends its tree by what it sets on the root. -/
theorem IsSound.step (h : r.IsSound) (op : Operation) :
    r.Extends op.rootSettings (r.step op).1 := by
  rcases step_eq r op with ⟨e, -, -, heq⟩ | ⟨hopen, heq⟩
  · rw [heq]
    exact h.extends_self _
  · rw [heq]
    exact h.perform op hopen

/-! ### Many operations -/

@[simp] theorem runAll_nil (r : Router) : r.runAll [] = (r, []) := rfl

@[simp] theorem runAll_cons (r : Router) (op : Operation) (ops : List Operation) :
    r.runAll (op :: ops) =
      (((r.step op).1.runAll ops).1, (r.step op).2 :: ((r.step op).1.runAll ops).2) := rfl

theorem runAll_append (r : Router) (ops ops' : List Operation) :
    r.runAll (ops ++ ops') =
      (((r.runAll ops).1.runAll ops').1, (r.runAll ops).2 ++ ((r.runAll ops).1.runAll ops').2) := by
  induction ops generalizing r with
  | nil => rfl
  | cons op ops ih => rw [List.cons_append, runAll_cons, runAll_cons, ih, List.cons_append]

/-- There is one answer for each operation. -/
theorem length_runAll (r : Router) (ops : List Operation) :
    (r.runAll ops).2.length = ops.length := by
  induction ops generalizing r with
  | nil => rfl
  | cons op ops ih => rw [runAll_cons, List.length_cons, List.length_cons, ih]

theorem IsSound.runAll (h : r.IsSound) (ops : List Operation) : (r.runAll ops).1.IsSound := by
  induction ops generalizing r with
  | nil => exact h
  | cons op ops ih => exact ih (h.step op).1

/-- **Every reachable router is sound.** -/
theorem isSound_runAll (options : Options) (ops : List Operation) :
    ((new options).runAll ops).1.IsSound :=
  (isSound_new options).runAll ops

/-- **A router that operations lead to** from a new one. -/
def Reachable (r : Router) : Prop := ∃ options ops, ((new options).runAll ops).1 = r

theorem Reachable.isSound (h : r.Reachable) : r.IsSound := by
  obtain ⟨options, ops, rfl⟩ := h
  exact isSound_runAll options ops

/-! ### Routers with one route -/

/-- A router with nothing but a route, which answers to all methods. -/
def ofRoute (options : Options) (schema : String) (action : Action) : Router :=
  ((new options).runAll [.route schema none none action]).1

/-- A router with nothing but a group and a route in it, which answers to all methods. -/
def ofGroup (options : Options) (group schema : String) (action : Action) : Router :=
  ((new options).runAll
    [.group group none (.step false (.route schema none none action []) .done)]).1

theorem reachable_ofGroup (options : Options) (group schema : String) (action : Action) :
    (ofGroup options group schema action).Reachable := ⟨options, _, rfl⟩

end Router

end UrlRouting
