import Mathlib
import UrlRouting.Proofs.Router.Arguments
import UrlRouting.Proofs.Url.Accounts

/-!
# The values that a url leaves

What the schemas of a path have not used up goes into the query, so it matters which values are left
behind exactly. They are those that count as given and whose names no schema declares, in their
order (`UrlRouting.Params.leaving`). Whether a parameter was written, left out, or stood in a segment
that was dropped makes no difference, and neither do the binders: a binder that is handed all values
that remain only looks at them.

Along a path each schema takes its names out of what the inner ones have left, so that in the end
the names of the route and of all its groups are gone (`UrlRouting.Router.leaves_undeclared`).
-/

namespace UrlRouting

/-! ### What is left of parameters -/

namespace Params

variable {p : Params}

/-- **What is left when some names are used up**: the entries that count as given and have none of
these names, in their order. -/
def leaving (p : Params) (names : List String) : Params :=
  p.filter fun name v => !v.isVoid && decide (name ∉ names)

/-- Dropping what counts as not given, and then taking names out. -/
theorem eraseAll_given (h : p.names.Nodup) (names : List String) :
    p.given.eraseAll names = p.leaving names := by
  have hgiven : p.given.names.Nodup := nodup_filter h _
  rw [eraseAll_eq_filter hgiven]
  refine congrArg mk (List.filter_filter.trans (List.filter_congr fun e _ => ?_))
  exact Bool.and_comm ..

theorem leaving_congr {names names' : List String} (h : ∀ name, name ∈ names ↔ name ∈ names') :
    p.leaving names = p.leaving names' :=
  congrArg mk (List.filter_congr fun e _ => by simp only [h e.1])

theorem leaving_leaving (names names' : List String) :
    (p.leaving names).leaving names' = p.leaving (names ++ names') := by
  refine congrArg mk (List.filter_filter.trans (List.filter_congr fun e _ => ?_))
  rw [Bool.eq_iff_iff]
  simp only [List.mem_append, not_or, Bool.and_eq_true, decide_eq_true_eq]
  tauto

end Params

/-! ### One schema -/

/-- A text that compiles is a schema that compiles. -/
theorem CompiledSchema.exists_compile {text : String} {ctx : CompileContext} {c : CompiledSchema}
    (h : ofText text ctx = .ok c) : ∃ s, Schema.ofText text = .ok s ∧ s.compile ctx = .ok c := by
  obtain ⟨s, hs, hcompile⟩ := ofText_eq_ok_iff.mp h
  exact ⟨s, hs, Schema.compile_eq_ok_iff.mpr hcompile⟩

/-- A node that compiles has a schema that compiles. -/
theorem Node.exists_compile {n : Node} {ctx : CompileContext} {c : CompiledNode}
    (h : n.compile ctx = .ok c) :
    ∃ s, Schema.ofText n.schema = .ok s ∧ s.compile ctx = .ok c.schema := by
  obtain ⟨s, hs, hcompile⟩ := exists_schema_of_compile h
  exact ⟨s, hs, Schema.compile_eq_ok_iff.mpr hcompile⟩

namespace Tree

variable {t : Tree} {view : View} {id : NodeId} {route text path : String} {params left : Params}

/-- **A schema uses up the names that it declares**, whatever it is written as. -/
theorem left_of_fillSchema {s : Schema} {ctx : CompileContext} {c : CompiledSchema}
    (hc : s.compile ctx = .ok c) (hnodup : params.names.Nodup)
    (h : t.fillSchema id route c params = .ok (text, left)) :
    left = params.leaving (s.params.map (·.name)) := by
  obtain ⟨row, a, hwrites, -, rfl⟩ := exists_writes hc h
  obtain ⟨erased, hparams, hnames⟩ := hwrites.names
  rw [Filled.left, hparams, ← Params.eraseAll_append, Params.eraseAll_given hnodup]
  exact Params.leaving_congr hnames

/-! ### A path -/

/-- The nodes that a path is made of, among a node and its ancestors: the node and the groups right
above it. -/
def alongPath : List Node → List Node
  | [] => []
  | n :: above => n :: above.takeWhile Node.isGroup

/-- The names that the schemas of a path declare. -/
def pathNames (t : Tree) (id : NodeId) : List String := (alongPath (t.chain id)).flatMap Node.names

theorem alongPath_subset (nodes : List Node) : alongPath nodes ⊆ nodes := by
  cases nodes with
  | nil => exact List.Subset.refl []
  | cons n above => exact List.cons_subset_cons n (List.takeWhile_sublist _).subset

/-- **How a path is written**, from the inside out: each schema is filled with what the inner ones
have left, and its text stands behind those of the nodes above. -/
inductive FillsPath (t : Tree) (view : View) : List Node → Params → String → Params → Prop
  /-- No more nodes. -/
  | nil {params : Params} : FillsPath t view [] params "" params
  /-- The schema of a node, then those of the nodes above it. -/
  | cons {n : Node} {nodes : List Node} {c : CompiledNode} {params rest left : Params}
      {front own : String} (compiles : view n.id = .ok c)
      (fill : t.fillSchema n.id n.schema c.schema params = .ok (own, rest))
      (above : FillsPath t view nodes rest front left) :
      FillsPath t view (n :: nodes) params (front ++ own) left

theorem FillsPath.single {n : Node} {c : CompiledNode} {own : String} (compiles : view n.id = .ok c)
    (fill : t.fillSchema n.id n.schema c.schema params = .ok (own, left)) :
    t.FillsPath view [n] params own left := by
  have h := FillsPath.cons compiles fill .nil
  rwa [String.empty_append] at h

/-- **A path that is written is that of a node and the groups right above it.** -/
theorem fillsPath_of_pathOf {nodes : List Node} (hne : nodes ≠ [])
    (h : (t.pathOf view nodes params).outcome = .ok (path, left)) :
    t.FillsPath view (alongPath nodes) params path left := by
  induction nodes generalizing params path left with
  | nil => exact absurd rfl hne
  | cons n above ih =>
    rw [pathOf] at h
    obtain ⟨c, hc, h⟩ := Consult.bind_eq_ok.mp h
    obtain ⟨⟨own, rest⟩, hfill, h⟩ := Consult.bind_eq_ok.mp h
    have hcompiles := Consult.node_eq_ok.mp hc
    cases above with
    | nil =>
      obtain ⟨rfl, rfl⟩ := Prod.mk.inj (Except.ok.inj h)
      exact .single hcompiles hfill
    | cons parent above =>
      dsimp only at h
      rw [alongPath, List.takeWhile_cons]
      cases hgroup : parent.isGroup with
      | false =>
        rw [hgroup] at h
        obtain ⟨rfl, rfl⟩ := Prod.mk.inj (Except.ok.inj h)
        exact .single hcompiles hfill
      | true =>
        rw [hgroup] at h
        obtain ⟨⟨front, final⟩, hfront, h⟩ := Consult.bind_eq_ok.mp h
        obtain ⟨rfl, rfl⟩ := Prod.mk.inj (Except.ok.inj h)
        exact .cons hcompiles hfill (ih (List.cons_ne_nil _ _) hfront)

/-- What nodes leave of values of which some names are used up already. -/
theorem FillsPath.left_eq {nodes : List Node} (h : t.FillsPath view nodes params path left)
    (hnodes : ∀ n ∈ nodes, ∃ ctx, view n.id = n.compile ctx) {given : Params}
    (hnodup : given.names.Nodup) {used : List String} (hparams : params = given.leaving used) :
    left = given.leaving (used ++ nodes.flatMap Node.names) := by
  induction h generalizing used with
  | nil => rw [List.flatMap_nil, List.append_nil, hparams]
  | @cons n nodes c params rest left front own compiles fill _ ih =>
    obtain ⟨⟨ctx, hview⟩, hnodes⟩ := List.forall_mem_cons.mp hnodes
    obtain ⟨s, hs, hc⟩ := Node.exists_compile (hview.symm.trans compiles)
    have hrest : rest = params.leaving n.names := by
      rw [Node.names, Node.declared, Schema.declaredIn_eq hs]
      exact left_of_fillSchema hc (hparams ▸ Params.nodup_filter hnodup _) fill
    rw [hparams, Params.leaving_leaving] at hrest
    rw [ih hnodes hrest, List.flatMap_cons, List.append_assoc]

/-- **The nodes of a path use up their names**, one after the other. -/
theorem left_of_pathOf {nodes : List Node} (hne : nodes ≠ [])
    (hnodes : ∀ n ∈ nodes, ∃ ctx, view n.id = n.compile ctx) (hnodup : params.names.Nodup)
    (h : (t.pathOf view nodes params).outcome = .ok (path, left)) :
    left = params.leaving ((alongPath nodes).flatMap Node.names) := by
  have hfills := fillsPath_of_pathOf hne h
  obtain ⟨n, above, rfl⟩ := List.exists_cons_of_ne_nil hne
  -- what counts as not given is dropped with the first schema
  cases hfills with
  | cons compiles fill above' =>
    obtain ⟨⟨ctx, hview⟩, hnodes⟩ := List.forall_mem_cons.mp hnodes
    obtain ⟨s, hs, hc⟩ := Node.exists_compile (hview.symm.trans compiles)
    have hrest := left_of_fillSchema hc hnodup fill
    rw [← Schema.declaredIn_eq hs] at hrest
    exact above'.left_eq (fun m hm => hnodes m ((List.takeWhile_sublist _).subset hm)) hnodup hrest

end Tree

namespace Router

/-- **What a url leaves of the values is exact.** A schema that is filled, at any node and with any
binders, leaves the values that count as given and whose names it does not declare, in their order.
So the path of a node leaves those whose names are declared neither by the node nor by one of the
groups around it. -/
theorem leaves_undeclared {r : Router} (hr : r.Reachable) {params : Params}
    (hnodup : params.names.Nodup) :
    (∀ (s : Schema) (ctx : CompileContext) (c : CompiledSchema), s.compile ctx = .ok c →
      ∀ (t : Tree) (id : NodeId) (route text : String) (left : Params),
        t.fillSchema id route c params = .ok (text, left) →
          left = params.leaving (s.params.map (·.name))) ∧
    ∀ (id : NodeId) (path : String) (left : Params), id < r.tree.size →
      (r.tree.pathOf r.view (r.tree.chain id) params).outcome = .ok (path, left) →
        left = params.leaving (r.tree.pathNames id) := by
  refine ⟨fun s ctx c hc t id route text left => Tree.left_of_fillSchema hc hnodup,
    fun id path left hid h => ?_⟩
  have hsound := hr.isSound
  obtain ⟨n, hn⟩ : ∃ n, r.tree.get? id = some n := ⟨_, List.getElem?_eq_getElem hid⟩
  refine Tree.left_of_pathOf ?_ (fun m hm => ?_) hnodup h
  · rw [hsound.tree.chain_eq hn]
    exact List.cons_ne_nil _ _
  · obtain ⟨ctx, -, hview⟩ :=
      hsound.view_eq (hsound.tree.mem_iff.mp (Tree.mem_of_mem_chain hm))
    exact ⟨ctx, hview⟩

/-- A route in a group, with a segment of two parameters. -/
def entryInGroup : Router :=
  ofGroup {} "/\x7blang\x7d" "/\x7bid\x7d[-\x7btag\x7d/\x7bpage\x7d]" (.identifier "")

/-- Values for a route in a group, and other ones. -/
def entryValues : Params :=
  ⟨[("q", .str "z"), ("lang", .str "en"), ("none", .null), ("id", .int 5), ("tag", .str "a")]⟩

set_option maxRecDepth 4000 in
/-- The segment is dropped, because a page is not given, and still its tag is gone. -/
theorem leaves_undeclared_in_group :
    entryValues.names.Nodup ∧ 2 < entryInGroup.tree.size ∧
      (entryInGroup.tree.pathOf entryInGroup.view (entryInGroup.tree.chain 2) entryValues).outcome =
        .ok ("/en/5", ⟨[("q", .str "z")]⟩) ∧
      (⟨[("q", .str "z")]⟩ : Params) = entryValues.leaving (entryInGroup.tree.pathNames 2) := by
  have hnodup : entryValues.names.Nodup := by decide
  have hsize : 2 < entryInGroup.tree.size := by decide
  have hpath : (entryInGroup.tree.pathOf entryInGroup.view (entryInGroup.tree.chain 2)
      entryValues).outcome = .ok ("/en/5", ⟨[("q", .str "z")]⟩) := by cbv
  exact ⟨hnodup, hsize, hpath,
    (leaves_undeclared (reachable_ofGroup _ _ _ _) hnodup).2 2 _ _ hsize hpath⟩

end Router

end UrlRouting
