import UrlRouting.Proofs.Router.Reachable

/-!
# The trees of routers

A tree grows by two things: a node is registered in a node that may hold others, and something is
set on a node. The trees that this leads to are the *reachable* ones (`UrlRouting.Tree.Reachable`).
They are sound, and what is to be shown of all of them is shown by induction, with one case for each
of the two.

Steps of a plan and whole plans keep a tree reachable, wherever they end
(`UrlRouting.Plan.carryOut_reachable`), and so every router has a reachable tree
(`UrlRouting.Router.tree_reachable`). So has a router in the midst of a plan: what has been carried
out up to there is a plan too.
-/

namespace UrlRouting

/-- **A tree that registrations and settings lead to**, one after the other. -/
inductive Tree.Reachable : Tree → Prop where
  /-- At first there is the root. -/
  | empty : Reachable Tree.empty
  /-- A node is registered in a node that may hold others. -/
  | add {t t' : Tree} {place id : NodeId} {schema : String} {name : Option String}
      {kind : NodeKind} : Reachable t → t.Holds place → kind ≠ .root →
      t.add place schema name kind = .ok (t', id) → Reachable t'
  /-- Things are set on a node. -/
  | configure {t : Tree} (place : NodeId) (ss : List Setting) : Reachable t →
      Reachable (t.configure place ss)

theorem Tree.Reachable.isSound {t : Tree} (h : t.Reachable) : t.IsSound := by
  induction h with
  | empty => exact isSound_empty
  | add _ hholds hkind hadd ih => exact ih.add_at hholds hkind hadd
  | configure place ss _ ih => exact ih.configure place ss

/-! ### Steps and plans -/

/-- **A step that registers a node**, a route or a hidden route, and what is set on it. -/
inductive Registration.Registers : Registration → String → Option String → NodeKind →
    List Setting → Prop where
  /-- A route. -/
  | route (schema : String) (name : Option String) (method : Option Method) (action : Action)
      (ss : List Setting) :
      Registers (.route schema name method action ss) schema name (.route method action) ss
  /-- A hidden route, which always has a name. -/
  | hidden (schema name : String) (ss : List Setting) :
      Registers (.hidden schema name ss) schema (some name) .hidden ss

section

variable {t t' : Tree} {place : NodeId} {id : Option NodeId} {r : Registration}

namespace Registration

theorem setting_or_registers (r : Registration) :
    (∃ s, r = .setting s) ∨ ∃ schema name kind ss, r.Registers schema name kind ss := by
  rcases r with ⟨schema, name, method, action, ss⟩ | ⟨schema, name, ss⟩ | s
  · exact .inr ⟨_, _, _, _, .route schema name method action ss⟩
  · exact .inr ⟨_, _, _, _, .hidden schema name ss⟩
  · exact .inl ⟨s, rfl⟩

/-- **What such a step does**: the node is registered, and then things are set on it. -/
theorem Registers.carryOut_eq {schema : String} {name : Option String} {kind : NodeKind}
    {ss : List Setting} (hr : r.Registers schema name kind ss) (t : Tree) (place : NodeId) :
    r.carryOut t place = (t.add place schema name kind).map fun added =>
      (added.1.configure added.2 ss, some added.2) := by
  rcases hr with ⟨_, _, _, _, _⟩ | ⟨_, _, _⟩ <;> rfl

theorem Registers.kind_ne_root {schema : String} {name : Option String} {kind : NodeKind}
    {ss : List Setting} (hr : r.Registers schema name kind ss) : kind ≠ .root := by
  rintro rfl
  cases hr

/-- **A step of a plan** keeps a tree reachable. -/
theorem carryOut_reachable (h : t.Reachable) (hholds : t.Holds place)
    (hr : r.carryOut t place = .ok (t', id)) : t'.Reachable := by
  rcases r.setting_or_registers with ⟨s, rfl⟩ | ⟨schema, name, kind, ss, hreg⟩
  · obtain ⟨rfl, -⟩ := Prod.mk.inj (Except.ok.inj hr)
    exact h.configure place [s]
  · rw [hreg.carryOut_eq] at hr
    rcases hadd : t.add place schema name kind with e | added
    · rw [hadd] at hr
      cases hr
    · rw [hadd] at hr
      obtain ⟨rfl, -⟩ := Prod.mk.inj (Except.ok.inj hr)
      exact (h.add hholds hreg.kind_ne_root hadd).configure added.2 ss

end Registration

/-- **A plan, wherever it ends,** keeps a tree reachable. -/
theorem Plan.carryOut_reachable (plan : Plan) (h : t.Reachable) (hholds : t.Holds place) :
    (plan.carryOut t place).tree.Reachable := by
  induction plan generalizing t place with
  | done => exact h
  | step lenient r rest ih =>
    rw [carryOut]
    rcases hr : r.carryOut t place with e | ⟨t₁, id⟩
    · dsimp only
      split
      · exact ih h hholds
      · exact h
    · exact ih (r.carryOut_reachable h hholds hr)
        ((r.carryOut_extends h.isSound hholds hr).2.holds hholds)
  | group lenient schema namePrefix inner rest ih1 ih2 =>
    rw [carryOut]
    rcases hadd : t.add place schema none (.group namePrefix) with e | ⟨t₁, id⟩
    · exact h
    · obtain ⟨hsound, hgroup⟩ := h.isSound.add_group hholds hadd
      have hinside := ih1 (h.add hholds (by simp) hadd) hgroup
      have hext : t.Extends place [] (inner.carryOut t₁ id).tree :=
        (Tree.extends_add hadd).elsewhere hsound (Nat.le_of_eq (Tree.add_eq_ok hadd).1.symm)
          (inner.carryOut_extends hsound hgroup).2
      have hafter := ih2 hinside (hext.holds hholds)
      dsimp only
      split
      · exact hafter
      · split
        · exact hafter
        · exact hinside

end

namespace Router

variable {r : Router}

/-- **An operation** keeps the tree of a router reachable. -/
theorem IsSound.step_tree_reachable (h : r.IsSound) (ht : r.tree.Reachable) (op : Operation) :
    (r.step op).1.tree.Reachable := by
  have hregister (reg : Registration) : (r.register reg).1.tree.Reachable := by
    rw [register]
    rcases hreg : reg.carryOut r.tree Tree.root with e | ⟨t, id⟩
    · exact ht
    · exact reg.carryOut_reachable ht h.holds_root hreg
  have hkeep (ids : List NodeId) : (r.keep ids).tree.Reachable := by
    rw [tree_keep]
    exact ht
  rcases step_eq r op with ⟨e, -, -, heq⟩ | ⟨-, heq⟩
  · rw [heq]
    exact ht
  · rw [heq]
    cases op with
    | route | hidden => exact hregister _
    | group schema namePrefix plan =>
      rw [Router.perform]
      rcases hadd : r.tree.add Tree.root schema none (.group namePrefix) with e | ⟨t, id⟩
      · exact ht
      · exact plan.carryOut_reachable (ht.add h.holds_root (by simp) hadd)
          (h.tree.add_group h.holds_root hadd).2
    | routes plan => exact plan.carryOut_reachable ht h.holds_root
    | setting s => exact ht.configure Tree.root [s]
    | dispatch | findMatch | url => exact hkeep _
    | sealUp =>
      rw [Router.perform]
      split <;> exact hkeep _
    | controller | find | isSealed | node | options => exact ht

theorem IsSound.runAll_tree_reachable (h : r.IsSound) (ht : r.tree.Reachable)
    (ops : List Operation) : (r.runAll ops).1.tree.Reachable := by
  induction ops generalizing r with
  | nil => exact ht
  | cons op ops ih => exact ih (h.step op).1 (h.step_tree_reachable ht op)

/-- **The tree of a reachable router is reachable.** -/
theorem tree_reachable (options : Options) (ops : List Operation) :
    ((new options).runAll ops).1.tree.Reachable :=
  (isSound_new options).runAll_tree_reachable .empty ops

end Router

end UrlRouting
